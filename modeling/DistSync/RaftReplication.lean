/-
**Who sends AppendEntries.**

A replication task is created by a leader, in `append_entry` or in the heartbeat loop, and gets to
run some time later; only then does `_replicate_to_peer` read the term and the log and build its
payload.  The comment in the source says that reading them without the lock is safe because only
the leader mutates the log.  But between the creation of the task and its first step the node may
handle a vote request or an AppendEntries call of a later term: it is a follower then, and sends
its log in the name of a term that another node leads (`Raft.leaderSpeaks_fails`).

The tasks that have been created and have not started are what this depends on: in a run in which
no leader steps down while it has such tasks (`Raft.NoStepDownUnstarted`), every payload is built
by the leader of its term (`Raft.leaderSpeaks`).

Main definitions:

* `Raft.ReplicateTask.unstarted` — a task that has not run yet;
* `Raft.NoStepDownUnstarted` — no leader steps down while it has unstarted tasks;
* `Raft.UnstartedLed` — unstarted tasks belong to leaders.

Main results:

* `Raft.leaderSpeaks`, `Raft.leaderSpeaks_fails`.
-/

import DistSync.RaftElection

set_option relaxedAutoImplicit false
set_option autoImplicit false

namespace Raft

open Runs

variable {ν Cmd : Type} [DecidableEq ν] {M : Membership ν} {s s' : Cluster ν Cmd}
  {callback : ν → ApplyCallback Cmd}

/-! ### Tasks that have not started -/

/-- The task was created and has not run. -/
def ReplicateTask.unstarted (task : ReplicateTask ν Cmd) : Bool :=
  match task.stage with
  | .created => true
  | _ => false

/-- A node with unstarted tasks is leader. -/
def UnstartedLed (p : Process ν Cmd) : Prop :=
  (∃ task ∈ p.tasks, task.unstarted = true) → p.raft.state = .leader

/-- No leader gives up its leadership, to a vote request of a higher term or to an AppendEntries
call of its own term or a higher one, while it has unstarted tasks. -/
def NoStepDownUnstarted (s : Cluster ν Cmd) : Action ν Cmd → Prop
  | .requestVote call voter =>
      ∀ payload ∈ s.voteCalls[call]?, (s.nodes voter).raft.currentTerm < payload.term →
        ∀ task ∈ (s.nodes voter).tasks, task.unstarted = false
  | .appendEntries call =>
      ∀ c ∈ s.appendCalls[call]?, (s.nodes c.peer).raft.currentTerm ≤ c.payload.term →
        ∀ task ∈ (s.nodes c.peer).tasks, task.unstarted = false
  | _ => True

instance (s : Cluster ν Cmd) : DecidablePred (NoStepDownUnstarted s)
  | .requestVote _ _ => inferInstanceAs (Decidable (∀ _ ∈ _, _ → _))
  | .appendEntries _ => inferInstanceAs (Decidable (∀ _ ∈ _, _ → _))
  | .electionTimeout _ | .electionResult _ _ | .appendEntry _ _ | .heartbeat _
  | .replicateStart _ _ | .replicateEnd _ _ _ | .appendEnd _ _ => .isTrue trivial

omit [DecidableEq ν] in
/-- Dropping tasks, or letting them run, makes no task unstarted. -/
theorem UnstartedLed.of_tasks {p p' : Process ν Cmd} (h : UnstartedLed p)
    (htasks : ∀ task ∈ p'.tasks, task ∈ p.tasks ∨ task.unstarted = false)
    (hstate : p.raft.state = .leader → p'.raft.state = .leader) : UnstartedLed p' := by
  rintro ⟨task, htask, hun⟩
  rcases htasks task htask with hmem | hstarted
  · exact hstate (h ⟨task, hmem, hun⟩)
  · rw [hstarted] at hun
    cases hun

omit [DecidableEq ν] in
theorem UnstartedLed.of_none {p : Process ν Cmd}
    (h : ∀ task ∈ p.tasks, task.unstarted = false) : UnstartedLed p := by
  rintro ⟨task, htask, hun⟩
  rw [h task htask] at hun
  cases hun

theorem UnstartedLed.step {a : Action ν Cmd} (hI : ∀ n, UnstartedLed (s.nodes n))
    (hok : NoStepDownUnstarted s a) (h : Moves M s a s') (n : ν) : UnstartedLed (s'.nodes n) := by
  have key : ∀ {m : ν} {p : Process ν Cmd}, UnstartedLed p →
      UnstartedLed ((s.set m p).nodes n) := fun hp =>
    Cluster.set_forall (P := fun _ p => UnstartedLed p) hI hp n
  cases h with
  | @electionTimeout m hn hstate hidle =>
      refine key (.of_none fun task htask => ?_)
      -- the node is not leader, so it has no unstarted task to begin with
      by_contra hun
      exact hstate (hI m ⟨task, htask, by simpa using hun⟩)
  | @requestVote call voter payload hcall hvoter =>
      rcases lt_or_ge (s.nodes voter).raft.currentTerm payload.term with hterm | hterm
      · exact key (.of_none (hok payload hcall hterm))
      · refine key ((hI voter).of_tasks (fun _ h => .inl h) fun hleader => ?_)
        rw [handleRequestVote_state, if_neg (not_lt.2 hterm)]
        exact hleader
  | @electionWon m =>
      exact key ((hI m).of_tasks (fun _ h => .inl (List.mem_of_mem_filter h)) fun _ => rfl)
  | @electionLost m => exact key (hI m)
  | appendEntry hleader => exact key fun _ => hleader
  | heartbeat _ hleader => exact key fun _ => hleader
  | @heartbeatExit m =>
      exact key ((hI m).of_tasks (fun _ h => .inl (List.mem_of_mem_filter h)) id)
  | @replicateStart m =>
      refine key ((hI m).of_tasks (fun task htask => ?_) id)
      rcases List.mem_or_eq_of_mem_set htask with htask | rfl
      · exact .inl htask
      · exact .inr rfl
  | @appendEntries call peer payload hcall =>
      rcases lt_or_ge payload.term (s.nodes peer).raft.currentTerm with hterm | hterm
      · rw [handleAppendEntries_of_stale _ hterm]
        exact key (hI peer)
      · exact key (.of_none (hok _ hcall hterm))
  | @replicateEnd m =>
      refine key ((hI m).of_tasks (fun task htask => ?_) (by simp))
      rcases List.mem_or_eq_of_mem_set htask with htask | rfl
      · exact .inl htask
      · exact .inr rfl
  | @appendEnd m =>
      exact key ((hI m).of_tasks (fun _ h => .inl (List.mem_of_mem_filter h)) (by simp))

theorem unstartedLed_run (h : Run (Raft.step M) NoStepDownUnstarted (initial callback) s) (n : ν) :
    UnstartedLed (s.nodes n) :=
  h.invariant (I := fun s => ∀ n, UnstartedLed (s.nodes n))
    (fun _ _ _ hI hok hstep => UnstartedLed.step hI hok (moves_of_step hstep))
    (fun _ => .of_none fun _ htask => by cases htask) n

/-! ### Payloads -/

/-- **Only the leader of a term speaks for it**, when no leader steps down with unstarted tasks:
the node whose task builds a payload is leader, and the payload carries its current term. -/
theorem leaderSpeaks (h : Run (Raft.step M) NoStepDownUnstarted (initial callback) s)
    {n : ν} {k : ℕ} (hstep : Raft.step M s (.replicateStart n k) = some s') :
    ∃ call, s'.appendCalls = s.appendCalls ++ [call] ∧ call.payload.leaderId = n ∧
      (s.nodes n).raft.state = .leader ∧
      (s.nodes n).raft.currentTerm = call.payload.term := by
  cases moves_of_step hstep with
  | replicateStart htask =>
      refine ⟨_, rfl, rfl, ?_, rfl⟩
      exact unstartedLed_run h n ⟨_, List.mem_of_getElem? htask, rfl⟩

/-- Node 0 wins term 1 and creates its heartbeat tasks. -/
def firstHeartbeat : List (Action (Fin 3) ℕ) :=
  [.electionTimeout 0, .requestVote 0 1, .requestVote 0 2, .electionResult 0 [(1, ⟨1, true⟩)],
    .heartbeat 0]

/-- Before they run it votes for node 2 in term 2. -/
def deposedSender : List (Action (Fin 3) ℕ) :=
  firstHeartbeat ++ [.electionTimeout 2, .requestVote 1 0]

/-- A follower can send AppendEntries in the term of another node. -/
theorem leaderSpeaks_fails :
    ¬ ∀ (s s' : Cluster (Fin 3) ℕ) (n : Fin 3) (k : ℕ),
      Run (Raft.step trio) anyAction (initial returning) s →
      Raft.step trio s (.replicateStart n k) = some s' →
      ∃ call, s'.appendCalls = s.appendCalls ++ [call] ∧ call.payload.leaderId = n ∧
        (s.nodes n).raft.state = .leader ∧
        (s.nodes n).raft.currentTerm = call.payload.term := by
  intro hall
  obtain ⟨s, hs, hnext, hstate⟩ := Run.exists_of_exec (Raft.step trio) anyAction
    (initial returning) deposedSender
    (fun s => (Raft.step trio s (.replicateStart 0 0)).isSome = true ∧
      (s.nodes 0).raft.state = .follower) (by decide)
  obtain ⟨s', hs'⟩ := Option.isSome_iff_exists.1 hnext
  obtain ⟨call, -, -, hleader, -⟩ := hall s s' 0 0 hs hs'
  rw [hstate] at hleader
  cases hleader

/-- The first heartbeat of node 0 is sent by the leader of its term. -/
theorem leaderSpeaks_firstHeartbeat :
    ∃ s s' : Cluster (Fin 3) ℕ, Run (Raft.step trio) NoStepDownUnstarted (initial returning) s ∧
      Raft.step trio s (.replicateStart 0 0) = some s' ∧
      ∃ call, s'.appendCalls = s.appendCalls ++ [call] ∧ call.payload.leaderId = 0 ∧
        (s.nodes 0).raft.state = .leader ∧
        (s.nodes 0).raft.currentTerm = call.payload.term := by
  obtain ⟨s, hs, hnext⟩ := Run.exists_of_exec (Raft.step trio) NoStepDownUnstarted
    (initial returning) firstHeartbeat
    (fun s => (Raft.step trio s (.replicateStart 0 0)).isSome = true) (by decide)
  obtain ⟨s', hs'⟩ := Option.isSome_iff_exists.1 hnext
  exact ⟨s, s', hs, hs', leaderSpeaks hs hs'⟩

end Raft
