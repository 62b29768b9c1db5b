/-
**Waiting for a lock is bounded.**

A request that has to wait gets behind the requests that wait already, and the holders are in front
of all of them.  Every release of the lock by one of its holders makes this line shorter: the holder
leaves it, and the requests that `_grant_waiting` takes from the queue become holders.  Nobody gets
in front, because `_can_grant` lets no request pass a queue whose head conflicts with the holders.
So a request is served, or is aborted, after at most as many releases as there are holders and
requests in front of it, whatever other commands come in between.

The exception is the one of `LockManager.headConflicts_iff`: when an abort leaves a reader at the
head of the queue while readers hold the lock, later readers are granted at once, and it may wait
while any number of them comes and goes.

Main definitions:

* `LockManager.LockState.rank` — the holders and the requests in front of a request;
* `LockManager.releasesAfter` — how many releases of a lock by a holder are among some commands.

Main results:

* `LockManager.rank_step` — a release by a holder makes the line shorter, and no command longer;
* `LockManager.boundedWaiting` — **a request is served after so many releases**.
-/

import DistSync.LockTables

set_option relaxedAutoImplicit false
set_option autoImplicit false

namespace LockManager

open LockStateMachine

variable {sm : LockStateMachine} {lock id : String} {command : Command}

/-! ### The line in front of a request -/

/-- The request is in the queue. -/
def LockState.queues (state : LockState) (id : String) : Prop :=
  ∃ request ∈ state.queue, request.requestId = id

/-- How many requests are in front of a request in the queue. -/
def LockState.position (state : LockState) (id : String) : ℕ :=
  state.queue.findIdx fun request => decide (request.requestId = id)

/-- The holders, and the requests in front of a request. -/
def LockState.rank (state : LockState) (id : String) : ℕ :=
  state.holders.size + state.position id

/-- Whether a command is a release of the lock by one of its holders. -/
def frees (sm : LockStateMachine) (lock : String) : Command → Bool
  | .release lock' client =>
      decide (lock' = lock) && ((sm.lockState lock).holders.get? client).isSome
  | _ => false

/-- How many of the commands `rest` are releases of the lock by one of its holders. -/
def releasesAfter (commands : List Command) (lock : String) : List Command → ℕ
  | [] => 0
  | command :: rest =>
      (if frees (applyAll commands) lock command = true then 1 else 0) +
        releasesAfter (commands ++ [command]) lock rest

/-- Requests that are queued behind do not count. -/
theorem findIdx_append_of_mem {α : Type} {p : α → Bool} {l : List α} (h : ∃ x ∈ l, p x = true)
    (l' : List α) : (l ++ l').findIdx p = l.findIdx p := by
  rw [List.findIdx_append, if_pos (List.findIdx_lt_length.2 h)]

/-- Requests that are taken from the front made up a part of the line. -/
theorem findIdx_append_of_notMem {α : Type} {p : α → Bool} {l : List α}
    (h : ∀ x ∈ l, p x = false) (l' : List α) :
    (l ++ l').findIdx p = l.length + l'.findIdx p := by
  have hlen : l.findIdx p = l.length := List.findIdx_eq_length.2 h
  rw [List.findIdx_append, if_neg (by omega), Nat.add_comm]

/-- A request that leaves the queue makes no line longer but its own. -/
theorem findIdx_eraseP_le {α : Type} {p q : α → Bool} (hpq : ∀ x, p x = true → q x = false)
    (l : List α) : (l.eraseP p).findIdx q ≤ l.findIdx q := by
  induction l with
  | nil => exact le_rfl
  | cons x l ih =>
      by_cases hx : p x = true
      · rw [List.eraseP_cons_of_pos hx, List.findIdx_cons, hpq x hx]
        exact Nat.le_succ _
      · rw [List.eraseP_cons_of_neg hx, List.findIdx_cons, List.findIdx_cons]
        cases q x with
        | true => exact le_rfl
        | false => exact Nat.succ_le_succ ih

/-! ### Holders -/

theorem size_hold_le (state : LockState) (request : LockRequest) :
    (state.hold request).1.holders.size ≤ state.holders.size + 1 := by
  rw [hold_holders, Dict.size_set]
  split
  · exact Nat.le_succ _
  · exact le_rfl

/-- Every request that is granted makes at most one holder. -/
theorem size_holdAll_le (state : LockState) (granted : List LockRequest) :
    (state.holdAll granted).holders.size ≤ state.holders.size + granted.length := by
  induction granted generalizing state with
  | nil => exact le_rfl
  | cons request granted ih =>
      have hhold := size_hold_le state request
      rw [List.length_cons]
      cases hcompleted : (state.hold request).2 with
      | false =>
          rw [LockState.holdAll_of_raise hcompleted]
          omega
      | true =>
          rw [LockState.holdAll_of_hold hcompleted]
          exact (ih _).trans (by omega)

/-- One who waits does so because somebody holds the lock. -/
theorem one_le_rank {state : LockState} (hidle : IdleFree state) (h : state.queues id) :
    1 ≤ state.rank id := by
  obtain ⟨request, hq, -⟩ := h
  have hheld : ∃ c, state.holders.get? c ≠ none := by
    by_contra hfree
    push Not at hfree
    rw [hidle hfree] at hq
    cases hq
  obtain ⟨c, hc⟩ := hheld
  obtain ⟨mode, hmode⟩ := Option.ne_none_iff_exists'.1 hc
  have hpos : 0 < state.holders.size := List.length_pos_of_mem (Dict.get?_eq_some_iff.1 hmode)
  exact hpos.trans_le (Nat.le_add_right _ _)

/-! ### One command -/

/-- **A holder that leaves makes the line shorter**, whoever is granted the lock next. -/
theorem rank_regrant {state : LockState} {client : String} (hheld : state.heldBy client)
    (hnodup : (state.queue.map (·.requestId)).Nodup)
    (h : (state.leave client).regrant.queues id) :
    (state.leave client).regrant.rank id + 1 ≤ state.rank id := by
  obtain ⟨request, hq, hid⟩ := h
  have hqueue := takeGranted_append (state.leave client)
  have hgranted : (state.leave client).regrant.holders.size ≤
      (state.holders.erase client).size + (takeGranted (state.leave client)).1.length :=
    size_holdAll_le _ _
  have hrest : (state.leave client).regrant.queue = (takeGranted (state.leave client)).2 := by
    rw [LockState.regrant, holdAll_queue]
  rw [hrest] at hq
  simp only [LockState.rank, LockState.position, hrest]
  -- the request is not among those that were taken
  change _ = state.queue at hqueue
  rw [← hqueue, List.map_append] at hnodup
  have hnot : ∀ x ∈ (takeGranted (state.leave client)).1, decide (x.requestId = id) = false := by
    intro x hx
    rw [decide_eq_false_iff_not, ← hid]
    intro heq
    refine List.disjoint_of_nodup_append hnodup (List.mem_map_of_mem hx) ?_
    rw [heq]
    exact List.mem_map_of_mem hq
  have hposition := findIdx_append_of_notMem hnot (takeGranted (state.leave client)).2
  rw [hqueue] at hposition
  have hmem : client ∈ state.holders.keys := by
    rw [Dict.mem_keys_iff, ← Option.isSome_iff_exists]
    exact hheld
  have hsize := Dict.size_erase hmem
  omega

/-- A request that is queued, and was known before, was queued before. -/
theorem queues_of_known {state : LockState} (hmove : LockMoves sm lock command state)
    (hknown : sm.requests.get? id ≠ none) (h : state.queues id) :
    (sm.lockState lock).queues id := by
  obtain ⟨request, hq, hid⟩ := h
  rcases hmove.queue_cases with hsub | ⟨new, -, -, hnew, -, hqueue⟩
  · exact ⟨request, hsub.subset hq, hid⟩
  · rw [hqueue, List.mem_append, List.mem_singleton] at hq
    rcases hq with hq | rfl
    · exact ⟨request, hq, hid⟩
    · rw [hid] at hnew
      exact absurd hnew hknown

/-- **No command makes the line longer, and a release by a holder makes it shorter.** -/
theorem rank_step (honce : QueuedOnce sm) (hhead : HeadConflicts (sm.lockState lock))
    (hmodes : (sm.lockState lock).wellModed) (hwait : (sm.lockState lock).queues id)
    (hwait' : ((sm.apply command).1.lockState lock).queues id) :
    ((sm.apply command).1.lockState lock).rank id +
      (if frees sm lock command = true then 1 else 0) ≤ (sm.lockState lock).rank id := by
  by_cases hfrees : frees sm lock command = true
  · -- only a release frees the lock
    rw [if_pos hfrees]
    cases command with
    | release lock' client =>
        simp only [frees, Bool.and_eq_true, decide_eq_true_eq] at hfrees
        obtain ⟨rfl, hheld⟩ := hfrees
        rw [apply, lockState_applyRelease, if_pos ⟨rfl, hheld⟩] at hwait' ⊢
        exact rank_regrant hheld (honce.nodup lock') hwait'
    | acquire requestId lock' client mode ttlMs createdAt => cases hfrees
    | abort requestId reason => cases hfrees
    | other op => cases hfrees
  · rw [if_neg hfrees, Nat.add_zero]
    have hmove := apply_lockMoves sm lock command
    generalize (sm.apply command).1.lockState lock = state at hmove hwait' ⊢
    cases hmove with
    | same => exact le_rfl
    | grant request hname hnew hgrant =>
        -- nobody is granted a lock at once while others wait
        obtain ⟨r, hr, -⟩ := hwait
        rw [queue_nil_of_canGrant hgrant hhead hmodes] at hr
        cases hr
    | wait request hname hnew hgrant =>
        obtain ⟨r, hr, hid⟩ := hwait
        exact Nat.add_le_add_left
          (findIdx_append_of_mem ⟨r, hr, decide_eq_true hid⟩ [request]).le _
    | @release client hheld =>
        refine absurd ?_ hfrees
        simp [frees, hheld]
    | @abort requestId reason request hfound =>
        refine Nat.add_le_add_left (findIdx_eraseP_le (fun x hx => ?_) _) _
        rw [decide_eq_true_eq] at hx
        rw [decide_eq_false_iff_not, hx]
        rintro rfl
        -- the request that is aborted is not queued any more
        obtain ⟨r, hr, hid⟩ := hwait'
        simp only [eraseP_eq_filter (honce.nodup lock), List.mem_filter] at hr
        simp [hid] at hr

/-! ### Any commands -/

/-- No abort among the commands leaves a reader in front of a queue that it could pass. -/
def ExposesNoReader (commands : List Command) : Prop :=
  ∀ pre command, pre ++ [command] <+: commands → ¬ ExposesReader (applyAll pre) command

theorem ExposesNoReader.of_isPrefix {commands commands' : List Command}
    (h : ExposesNoReader commands') (hpre : commands <+: commands') : ExposesNoReader commands :=
  fun pre command hpre' => h pre command (hpre'.trans hpre)

theorem headConflicts_applyAll {commands : List Command}
    (hmodes : ∀ command ∈ commands, command.wellModed) (hok : ExposesNoReader commands) :
    HeadConflicts ((applyAll commands).lockState lock) := by
  induction commands using List.reverseRecOn with
  | nil =>
      intro head hhead
      cases hhead
  | append_singleton commands command ih =>
      have hinit := fun c hc => hmodes c (List.mem_append_left _ hc)
      rw [applyAll_snoc]
      exact HeadConflicts.step (apply_lockMoves _ lock command)
        (hok commands command (List.prefix_refl _)) (wellModed_applyAll hinit lock)
        (exclusion_applyAll commands lock) (ih hinit (hok.of_isPrefix (List.prefix_append _ _)))

theorem known_applyAll {commands rest : List Command}
    (h : (applyAll commands).requests.get? id ≠ none) :
    (applyAll (commands ++ rest)).requests.get? id ≠ none := by
  induction rest using List.reverseRecOn with
  | nil => rwa [List.append_nil]
  | append_singleton rest command ih =>
      rw [← List.append_assoc, applyAll_snoc]
      exact requests_mono command ih

/-- A request that is queued in the end was queued all the time. -/
theorem queues_applyAll {commands rest : List Command}
    (hknown : (applyAll commands).requests.get? id ≠ none)
    (h : ((applyAll (commands ++ rest)).lockState lock).queues id) :
    ((applyAll commands).lockState lock).queues id := by
  induction rest using List.reverseRecOn with
  | nil => rwa [List.append_nil] at h
  | append_singleton rest command ih =>
      rw [← List.append_assoc, applyAll_snoc] at h
      exact ih (queues_of_known (apply_lockMoves _ lock command) (known_applyAll hknown) h)

/-- **The line gets shorter by all the releases** while the request is in it. -/
theorem rank_applyAll {commands rest : List Command}
    (hmodes : ∀ command ∈ commands ++ rest, command.wellModed)
    (hok : ExposesNoReader (commands ++ rest))
    (hknown : (applyAll commands).requests.get? id ≠ none)
    (h : ((applyAll (commands ++ rest)).lockState lock).queues id) :
    ((applyAll (commands ++ rest)).lockState lock).rank id + releasesAfter commands lock rest ≤
      ((applyAll commands).lockState lock).rank id := by
  induction rest generalizing commands with
  | nil => rw [List.append_nil, releasesAfter, Nat.add_zero]
  | cons command rest ih =>
      have hsplit : commands ++ command :: rest = (commands ++ [command]) ++ rest := by simp
      have hinit : ∀ c ∈ commands, c.wellModed := fun c hc =>
        hmodes c (List.mem_append_left _ hc)
      have hknown' : (applyAll (commands ++ [command])).requests.get? id ≠ none :=
        known_applyAll hknown
      have hwait := queues_applyAll hknown h
      rw [hsplit] at h hmodes hok ⊢
      have hlater := ih hmodes hok hknown' h
      have hwait' := queues_applyAll hknown' h
      rw [applyAll_snoc] at hlater hwait'
      have hnow := rank_step (queuedOnce_applyAll commands)
        (headConflicts_applyAll hinit (hok.of_isPrefix (by simp)))
        (wellModed_applyAll hinit lock) hwait hwait'
      rw [releasesAfter]
      omega

/-- A request that has waited waits, or is granted, or is aborted. -/
theorem status_applyAll {commands rest : List Command}
    (h : (applyAll commands).status? id = some "waiting") :
    (applyAll (commands ++ rest)).status? id = some "waiting" ∨
      (applyAll (commands ++ rest)).status? id = some "granted" ∨
      (applyAll (commands ++ rest)).status? id = some "aborted" := by
  induction rest using List.reverseRecOn with
  | nil =>
      rw [List.append_nil]
      exact .inl h
  | append_singleton rest command ih =>
      rw [← List.append_assoc]
      have hforward := statusesForward_applyAll (commands ++ rest) command
      rcases ih with hstatus | hstatus | hstatus
      · exact (hforward _ _ hstatus).imp_right And.right
      · refine .inr (.inl ((hforward _ _ hstatus).resolve_right ?_))
        simp
      · refine .inr (.inr ((hforward _ _ hstatus).resolve_right ?_))
        simp

/-- **Bounded waiting.**  When modes and times to live are well formed and no abort exposes a
reader, a request that waits for a lock is granted or aborted as soon as holders of the lock have
released it as often as there were holders and requests in front of it, whatever else is applied in
between. -/
theorem boundedWaiting {commands rest : List Command}
    (hmodes : ∀ command ∈ commands ++ rest, command.wellModed)
    (htimed : ∀ command ∈ commands ++ rest, WellTimed command)
    (hok : ExposesNoReader (commands ++ rest)) {request : LockRequest}
    (hq : request ∈ ((applyAll commands).lockState lock).queue)
    (hreleases : ((applyAll commands).lockState lock).rank request.requestId ≤
      releasesAfter commands lock rest) :
    (applyAll (commands ++ rest)).status? request.requestId = some "granted" ∨
      (applyAll (commands ++ rest)).status? request.requestId = some "aborted" := by
  have hinit := fun c hc => htimed c (List.mem_append_left _ hc)
  have hknown := (queuedOnce_applyAll commands).known lock request hq
  have hwaiting := status?_eq_waiting_iff.2
    ⟨request.info, (mirrors_applyAll hinit).queued lock request hq⟩
  refine (status_applyAll hwaiting).resolve_left fun hstatus => ?_
  obtain ⟨info, hinfo⟩ := status?_eq_waiting_iff.1 hstatus
  obtain ⟨name, last, hlast, hid, -⟩ := (mirrors_applyAll htimed).waiting _ _ hinfo
  -- it is still in the queue it was in
  obtain ⟨first, hfirst, hid'⟩ := queues_applyAll hknown ⟨last, hlast, hid⟩
  obtain rfl := (queuedOnce_applyAll commands).apart first hfirst request hq hid'
  have hend : ((applyAll (commands ++ rest)).lockState name).queues request.requestId :=
    ⟨last, hlast, hid⟩
  have hrank := rank_applyAll hmodes hok hknown hend
  have hpos := one_le_rank (idleFree_applyAll hmodes name) hend
  omega

/-- Another reader comes, and then the holder and the writer in front of the reader leave. -/
def bothLeave : List Command :=
  [.acquire "r4" "db" "dave" .shared .null 3, .release "db" "alice", .release "db" "bob"]

/-- Two releases serve the reader behind the writer. -/
theorem boundedWaiting_bothLeave :
    (applyAll (readerWriterReader ++ bothLeave)).status? "r3" = some "granted" ∨
      (applyAll (readerWriterReader ++ bothLeave)).status? "r3" = some "aborted" := by
  refine @boundedWaiting "db" readerWriterReader bothLeave ?_ ?_ ?_
    ⟨"r3", "db", "carol", .shared, 2, .null⟩ ?_ (by decide)
  · simp [readerWriterReader, bothLeave, Command.wellModed]
  · simp [readerWriterReader, bothLeave, WellTimed]
  · intro pre command hpre hexposes
    have hmem := hpre.subset (List.mem_append_right _ (List.mem_singleton_self _))
    simp only [readerWriterReader, bothLeave, List.cons_append, List.nil_append, List.mem_cons,
      List.not_mem_nil, or_false] at hmem
    rcases hmem with rfl | rfl | rfl | rfl | rfl | rfl <;> exact hexposes
  · exact List.mem_of_getElem? (i := 1) rfl

end LockManager
