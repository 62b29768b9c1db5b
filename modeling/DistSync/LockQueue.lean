/-
**The head of the queue.**

A request that waits should have a reason to: the one at the head of the queue conflicts with the
holders of the lock.  `_apply_release` looks at the queue again after it has changed the holders.
`_apply_abort` changes the queue and does not look.  When it removes a waiting writer from the head,
and readers hold the lock or nobody does, a reader behind the writer could go on, and is left.

`LockManager.ExposesReader` describes these aborts.  They are the only commands that leave a
request waiting without a conflict, in any sequence of commands.

Main definitions:

* `LockManager.HeadConflicts` — the head of the queue has a reason to wait;
* `LockManager.ExposesReader` — **the abort that takes the reason away**.

Main results:

* `LockManager.HeadConflicts.step` — every other command keeps the invariant;
* `LockManager.headConflicts_iff` — **when no grantable request is left waiting**.
-/

import DistSync.LockRequests
import DistSync.RunRules

set_option relaxedAutoImplicit false
set_option autoImplicit false

namespace LockManager

open LockStateMachine

/-! ### Well-formed commands -/

/-- An acquire asks for one of the two modes. -/
def Command.wellModed : Command → Prop
  | .acquire _ _ _ mode _ _ => mode = .shared ∨ mode = .exclusive
  | _ => True

/-- All requests in the queue have one of the two modes. -/
def LockState.wellModed (state : LockState) : Prop :=
  ∀ request ∈ state.queue, request.mode = .shared ∨ request.mode = .exclusive

theorem LockMoves.wellModed {sm : LockStateMachine} {name : String} {command : Command}
    {state : LockState} (hmove : LockMoves sm name command state) (hcommand : command.wellModed)
    (h : (sm.lockState name).wellModed) : state.wellModed := by
  intro request hq
  rcases hmove.queue hq with hq | ⟨-, rfl⟩
  · exact h request hq
  · exact hcommand

theorem wellModed_applyAll {commands : List Command}
    (h : ∀ command ∈ commands, command.wellModed) (name : String) :
    ((applyAll commands).lockState name).wellModed := by
  induction commands using List.reverseRecOn with
  | nil =>
      intro request hq
      cases hq
  | append_singleton commands command ih =>
      rw [applyAll_snoc]
      have hlast := h command (List.mem_append_right _ (List.mem_singleton_self _))
      exact (apply_lockMoves _ name command).wellModed hlast
        (ih fun c hc => h c (List.mem_append_left _ hc))

/-! ### Conflicts -/

/-- A request conflicts with the holders: a writer with any holder, a reader with a writer. -/
def LockState.conflicts (state : LockState) (request : LockRequest) : Prop :=
  (request.mode = .exclusive → ∃ c, state.heldBy c) ∧
  (request.mode = .shared → ∃ c, state.holders.get? c = some .exclusive)

/-- The request at the head of the queue conflicts with the holders. -/
def HeadConflicts (state : LockState) : Prop :=
  ∀ head ∈ state.queue.head?, state.conflicts head

/-- An abort that removes the head of a queue, when the next request is a reader's and no writer
holds the lock. -/
def ExposesReader (sm : LockStateMachine) : Command → Prop
  | .abort requestId _ => ∃ name state request next rest,
      sm.findQueued requestId = some (name, state, request) ∧
      state.queue = request :: next :: rest ∧ next.mode = .shared ∧
      ∀ c, state.holders.get? c ≠ some .exclusive
  | _ => False

theorem shared_ne_exclusive : Json.shared ≠ Json.exclusive := by
  simp [Json.shared, Json.exclusive]

theorem not_conflicts_shared {state : LockState} {request : LockRequest}
    (hmode : request.mode = .shared) (h : ∀ c, state.holders.get? c ≠ some .exclusive) :
    ¬ state.conflicts request := by
  intro hconflicts
  obtain ⟨c, hc⟩ := hconflicts.2 hmode
  exact h c hc

/-- A reader that meets only readers is granted. -/
theorem canGrant_of_readers {state : LockState} {request : LockRequest}
    (hmode : request.mode = .shared) (hqueue : ∀ r ∈ state.queue, r.mode = .shared)
    (hholders : ∀ c, state.holders.get? c ≠ some .exclusive) : canGrant state request = true := by
  have hwriter : state.holders.values.any (·.isStr "exclusive") = false := by
    rw [← Bool.not_eq_true, any_exclusive_iff]
    exact fun ⟨c, hc⟩ => hholders c hc
  have hnone : state.queue.any (·.mode.isStr "exclusive") = false := by
    rw [List.any_eq_false]
    intro r hr
    rw [hqueue r hr]
    simp [Json.shared, Json.isStr]
  have hexclusive : request.mode.isStr "exclusive" = false := by
    rw [hmode]
    rfl
  have hshared : request.mode.isStr "shared" = true := Json.isStr_iff.2 hmode
  simp [canGrant, hwriter, hnone, hexclusive, hshared]

/-- A request that was not granted conflicts with the holders, or comes behind a writer. -/
theorem conflicts_of_not_canGrant {state : LockState} {request : LockRequest}
    (h : canGrant state request = false) (hqueue : state.queue = []) :
    state.conflicts request := by
  constructor
  · intro hmode
    by_contra hnone
    -- a writer that meets no holder is granted
    have hfree : state.holders.isEmpty = true := by
      refine Dict.isEmpty_iff.2 fun c => ?_
      by_contra hc
      exact hnone ⟨c, Option.isSome_iff_ne_none.2 hc⟩
    have hgrant : canGrant state request = true := by
      simp [canGrant, hfree, Json.isStr_iff.2 hmode]
    rw [hgrant] at h
    cases h
  · intro hmode
    by_contra hnone
    have hgrant : canGrant state request = true := by
      refine canGrant_of_readers hmode (fun r hr => ?_) fun c hc => hnone ⟨c, hc⟩
      rw [hqueue] at hr
      cases hr
    rw [hgrant] at h
    cases h

/-- While the head conflicts, only a lock without a queue is granted at once. -/
theorem queue_nil_of_canGrant {state : LockState} {request : LockRequest}
    (h : canGrant state request = true) (hhead : HeadConflicts state) (hmodes : state.wellModed) :
    state.queue = [] := by
  cases hq : state.queue with
  | nil => rfl
  | cons head rest =>
      exfalso
      have hconflict := hhead head (by rw [hq]; rfl)
      rcases canGrant_cases h with ⟨-, hfree⟩ | ⟨-, hwriter, hqueue⟩
      · rcases hmodes head (by rw [hq]; exact List.mem_cons_self) with hmode | hmode
        · obtain ⟨c, hc⟩ := hconflict.2 hmode
          rw [hfree c] at hc
          cases hc
        · obtain ⟨c, hc⟩ := hconflict.1 hmode
          rw [LockState.heldBy, hfree c] at hc
          cases hc
      · rcases hmodes head (by rw [hq]; exact List.mem_cons_self) with hmode | hmode
        · exact not_conflicts_shared hmode hwriter hconflict
        · exact hqueue head (by rw [hq]; exact List.mem_cons_self) hmode

/-! ### Every command but one -/

theorem conflicts_of_writer {state : LockState} (client : String)
    (h : state.holders.get? client = some .exclusive) (request : LockRequest) :
    state.conflicts request :=
  ⟨fun _ => ⟨client, by rw [LockState.heldBy, h]; rfl⟩, fun _ => ⟨client, h⟩⟩

/-- `_grant_waiting` leaves a head that conflicts, whatever it started from. -/
theorem headConflicts_regrant {state : LockState} (hholders : Exclusion state.holders) :
    HeadConflicts state.regrant := by
  intro head hhead
  unfold LockState.regrant at hhead ⊢
  rw [holdAll_queue] at hhead
  rcases takeGranted_cases state with ⟨first, hmode, -, -, htake⟩ |
    ⟨-, -, hqueue, hnext, hheld⟩ | ⟨htake, hcase⟩
  · -- a writer was granted
    rw [htake, holdAll_singleton]
    refine conflicts_of_writer first.clientId ?_ head
    rw [hold_holders, Dict.get?_set_self, hmode]
  · -- readers were granted, and the next request is a writer's
    refine ⟨fun hmode => ?_, fun hmode => absurd hmode (hnext head hhead)⟩
    cases hgranted : (takeGranted state).1 with
    | nil =>
        rw [hgranted, List.nil_append] at hqueue
        rw [← hqueue] at hhead
        obtain ⟨c, mode, hc⟩ := hheld head hhead hmode
        exact ⟨c, by rw [LockState.holdAll, LockState.heldBy, hc]; rfl⟩
    | cons request granted =>
        exact ⟨request.clientId, heldBy_holdAll_cons _ request granted⟩
  · -- nothing was granted
    rw [htake] at hhead ⊢
    rcases hcase with hnil | ⟨c, mode, hc, hmode⟩
    · rw [hnil] at hhead
      cases hhead
    · obtain ⟨held, hheld⟩ := hholders
      have hwriter := (hheld.mode hc).resolve_left hmode
      rw [hwriter] at hc
      exact conflicts_of_writer c hc head

theorem headConflicts_abort {sm : LockStateMachine} {name requestId : String}
    {reason : Option String} {request : LockRequest}
    (hfound : sm.findQueued requestId = some (name, sm.lockState name, request))
    (hok : ¬ ExposesReader sm (.abort requestId reason)) (hmodes : (sm.lockState name).wellModed)
    (h : HeadConflicts (sm.lockState name)) :
    HeadConflicts { sm.lockState name with
      queue := (sm.lockState name).queue.eraseP (·.requestId = requestId) } := by
  obtain ⟨-, hfind⟩ := findQueued_lock hfound
  intro next hnext
  cases hq : (sm.lockState name).queue with
  | nil =>
      simp [hq] at hnext
  | cons head rest =>
      have hhead := h head (by rw [hq]; rfl)
      simp only [hq] at hnext
      by_cases hid : head.requestId = requestId
      · -- the head is aborted, and `next` was behind it
        rw [List.eraseP_cons_of_pos (by simpa using hid)] at hnext
        rw [hq, List.find?_cons_of_pos (by simpa using hid)] at hfind
        obtain rfl := Option.some.inj hfind
        constructor
        · intro _
          rcases hmodes head (by rw [hq]; exact List.mem_cons_self) with hmode | hmode
          · obtain ⟨c, hc⟩ := hhead.2 hmode
            exact ⟨c, by rw [LockState.heldBy, hc]; rfl⟩
          · exact hhead.1 hmode
        · intro hmode
          by_contra hwriter
          push Not at hwriter
          cases rest with
          | nil => cases hnext
          | cons next' rest =>
              cases hnext
              exact hok ⟨name, _, head, next, rest, hfound, hq, hmode, hwriter⟩
      · rw [List.eraseP_cons_of_neg (by simpa using hid)] at hnext
        cases hnext
        exact hhead

/-- **Every other command keeps the invariant.** -/
theorem HeadConflicts.step {sm : LockStateMachine} {name : String} {command : Command}
    {state : LockState} (hmove : LockMoves sm name command state)
    (hok : ¬ ExposesReader sm command) (hmodes : (sm.lockState name).wellModed)
    (hholders : Exclusion (sm.lockState name).holders)
    (h : HeadConflicts (sm.lockState name)) : HeadConflicts state := by
  cases hmove with
  | same => exact h
  | grant request hname hnew hgrant =>
      intro head hhead
      rw [hold_queue, queue_nil_of_canGrant hgrant h hmodes] at hhead
      cases hhead
  | wait request hname hnew hgrant =>
      intro head hhead
      cases hq : (sm.lockState name).queue with
      | nil =>
          have hconflict := conflicts_of_not_canGrant hgrant hq
          simp only [hq, List.nil_append, List.head?_cons, Option.mem_def, Option.some.injEq]
            at hhead
          rw [← hhead]
          exact hconflict
      | cons first rest =>
          simp only [hq, List.cons_append, List.head?_cons, Option.mem_def, Option.some.injEq]
            at hhead
          rw [← hhead]
          exact h first (by rw [hq]; rfl)
  | @release clientId hheld =>
      obtain ⟨held, hheld⟩ := hholders
      exact headConflicts_regrant (hheld.erase _)
  | abort hfound => exact headConflicts_abort hfound hok hmodes h

/-- An exposed reader is left at the head of its queue without a conflict. -/
theorem not_headConflicts_of_exposes {sm : LockStateMachine} {command : Command}
    (h : ExposesReader sm command) :
    ∃ name, ¬ HeadConflicts ((sm.apply command).1.lockState name) := by
  cases command with
  | abort requestId reason =>
      obtain ⟨name, state, request, next, rest, hfound, hq, hmode, hwriter⟩ := h
      obtain ⟨-, hfind⟩ := findQueued_lock hfound
      have hid : request.requestId = requestId := by simpa using List.find?_some hfind
      refine ⟨name, fun hhead => not_conflicts_shared hmode hwriter ?_⟩
      have hnext := hhead next
      simp only [apply, applyAbort, hfound, lockState_withRequests, lockState_setLock_self, hq]
        at hnext
      rw [List.eraseP_cons_of_pos (by simpa using hid)] at hnext
      exact hnext rfl
  | acquire requestId lock clientId mode ttlMs createdAt => exact h.elim
  | release lock clientId => exact h.elim
  | other op => exact h.elim

/-- **When no grantable request is left waiting.**  In a sequence of commands the head of every
queue always conflicts with the holders if and only if no abort exposes a reader. -/
theorem headConflicts_iff (commands : List Command)
    (hmodes : ∀ command ∈ commands, command.wellModed) :
    (∀ pre, pre <+: commands → ∀ name, HeadConflicts ((applyAll pre).lockState name)) ↔
    ∀ pre command, pre ++ [command] <+: commands → ¬ ExposesReader (applyAll pre) command := by
  refine Runs.forall_prefix_iff
    (P := fun pre => ∀ name, HeadConflicts ((applyAll pre).lockState name)) ?_
    fun pre command hpre hconflicts => ⟨fun hall hexposes => ?_, fun hok name => ?_⟩
  · intro name head hhead
    cases hhead
  · obtain ⟨name, hnot⟩ := not_headConflicts_of_exposes hexposes
    rw [← applyAll_snoc] at hnot
    exact hnot (hall name)
  · have hpre' : pre <+: commands := (List.prefix_append pre [command]).trans hpre
    have hmodes' : ((applyAll pre).lockState name).wellModed :=
      wellModed_applyAll (fun c hc => hmodes c (hpre'.subset hc)) name
    rw [applyAll_snoc]
    exact HeadConflicts.step (apply_lockMoves _ name command) hok hmodes'
      (exclusion_applyAll pre name) (hconflicts name)

/-- A reader holds the lock, a writer waits for it, and a reader waits behind the writer. -/
def readerWriterReader : List Command :=
  [.acquire "r1" "db" "alice" .shared .null 0, .acquire "r2" "db" "bob" .exclusive .null 1,
    .acquire "r3" "db" "carol" .shared .null 2]

/-- When the writer is aborted, the reader behind it stays in the queue. -/
theorem headConflicts_fails :
    ¬ ∀ commands : List Command, (∀ command ∈ commands, command.wellModed) →
      ∀ name, HeadConflicts ((applyAll commands).lockState name) := by
  intro hall
  have hmodes : ∀ command ∈ readerWriterReader ++ [.abort "r2" none], command.wellModed := by
    simp [readerWriterReader, Command.wellModed]
  have hhead := hall _ hmodes "db" ⟨"r3", "db", "carol", .shared, 2, .null⟩ rfl
  obtain ⟨c, hc⟩ := hhead.2 rfl
  have hreader : ((applyAll (readerWriterReader ++ [.abort "r2" none])).lockState "db").holders =
    (∅ : Dict String Json).set "alice" .shared := rfl
  rw [hreader, Dict.get?_set] at hc
  split at hc
  · exact shared_ne_exclusive (Option.some.inj hc)
  · cases hc

/-- Before the abort two requests wait, and the first of them for a reason. -/
theorem headConflicts_readerWriterReader :
    ((applyAll readerWriterReader).lockState "db").queue.map LockRequest.requestId = ["r2", "r3"] ∧
      HeadConflicts ((applyAll readerWriterReader).lockState "db") := by
  refine ⟨by decide, (headConflicts_iff readerWriterReader ?_).2 ?_ _ (List.prefix_refl _) "db"⟩
  · simp [readerWriterReader, Command.wellModed]
  · intro pre command hpre hexposes
    have hmem := hpre.subset (List.mem_append_right _ (List.mem_singleton_self _))
    simp only [readerWriterReader, List.mem_cons, List.not_mem_nil, or_false] at hmem
    rcases hmem with rfl | rfl | rfl <;> exact hexposes

end LockManager
