/-
**What `match_index` claims.**

A leader keeps in `match_index` how far the log of each peer agrees with its own.  The field is
reset by `_become_leader` and written by `_replicate_to_peer` when a call has succeeded; what is
written is computed from the `next_index` and the entries that the coroutine kept over the call,
and the term is not looked at again.  A coroutine of `append_entry` can outlive the leadership in
which it was created, so its reply may reach the node in a later leadership, with another log
(`Raft.matchAcknowledged_fails`).

When a leader takes successful replies to calls of its current term only, there is one way left to
go wrong: a call that the node made as a candidate, from a task of an earlier leadership, and an
AppendEntries call of the same term that changes its log before it wins
(`Raft.matchIndex_rivalCall`).  In the runs that exclude both (`Raft.AnswersInTerm`) whatever
`match_index` claims was acknowledged (`Raft.matchAcknowledged`).

Main definitions:

* `Raft.acknowledgement` — the acknowledgement that a step hands to a node;
* `Raft.MatchAcknowledged` — what `match_index` claims is in the log and was acknowledged;
* `Raft.RepliesInTerm`, `Raft.NoRivalCall`, `Raft.AnswersInTerm` — the replies a leader takes are
  to calls of its term, about the log that it has.

Main results:

* `Raft.Moves.matchIndex` — **how `match_index` changes while a node leads**;
* `Raft.matchAcknowledged`, `Raft.matchAcknowledged_fails`.
-/

import DistSync.RaftCopies

set_option relaxedAutoImplicit false
set_option autoImplicit false

namespace Raft

open Runs TermLog

variable {ν Cmd : Type} [DecidableEq ν] {M : Membership ν} {s s' : Cluster ν Cmd}
  {callback : ν → ApplyCallback Cmd} {n peer : ν}

/-! ### Acknowledgements -/

/-- The index up to which an AppendEntries call covers the log. -/
def AppendEntries.lastIndex (payload : AppendEntries ν Cmd) : ℤ :=
  payload.prevLogIndex + payload.entries.length

/-- The acknowledgement that a step hands to `n`: one of its replication tasks for `peer` resumes
with a successful reply.  It is given by the position of the call and its payload. -/
def acknowledgement (s : Cluster ν Cmd) (n peer : ν) :
    Action ν Cmd → Option (ℕ × AppendEntries ν Cmd)
  | .replicateEnd m k reply =>
      if m = n ∧ reply.any (·.success) = true then
        match (s.nodes n).tasks[k]? with
        | some ⟨_, p, .awaiting call _ payload⟩ => if p = peer then some (call, payload) else none
        | _ => none
      else none
  | _ => none

/-- The tasks of a node that wait for a reply made their call in a term up to its own, and it
begins where they remember. -/
def TasksWait (p : Process ν Cmd) : Prop :=
  ∀ task ∈ p.tasks, ∀ call next payload, task.stage = .awaiting call next payload →
    payload.prevLogIndex = (next : ℤ) - 1 ∧ payload.term ≤ p.raft.currentTerm

/-- How the tasks of a node change when it takes a step. -/
inductive TasksMove (n : ν) (calls : ℕ) (p p' : Process ν Cmd) : Prop
  /-- Tasks are dropped, created, or finish. -/
  | idle (htasks : ∀ task ∈ p'.tasks, task ∈ p.tasks ∨ ∀ call next payload,
      task.stage ≠ .awaiting call next payload)
  /-- A task makes its call. -/
  | call (owner : Owner) (peer : ν) (htasks : ∀ task ∈ p'.tasks, task ∈ p.tasks ∨
      task = ⟨owner, peer, .awaiting calls (p.raft.nextIndex peer)
        (replicateToPeer n p.raft peer)⟩) (hraft : p'.raft = p.raft)

/-- **Only the start of a replication task makes one wait.** -/
theorem Moves.tasks {a : Action ν Cmd} (h : Moves M s a s') (n : ν) :
    TasksMove n s.appendCalls.length (s.nodes n) (s'.nodes n) := by
  have key : ∀ {m : ν} {p : Process ν Cmd},
      TasksMove m s.appendCalls.length (s.nodes m) p →
      TasksMove n s.appendCalls.length (s.nodes n) ((s.set m p).nodes n) := fun hp =>
    Cluster.set_forall (P := fun m p => TasksMove m s.appendCalls.length (s.nodes m) p)
      (fun m => .idle fun _ hmem => .inl hmem) hp n
  have hfilter : ∀ (m : ν) (keep : ReplicateTask ν Cmd → Bool),
      ∀ task ∈ (s.nodes m).tasks.filter keep, task ∈ (s.nodes m).tasks ∨ ∀ call next payload,
        task.stage ≠ .awaiting call next payload :=
    fun m _ task hmem => .inl (List.mem_of_mem_filter hmem)
  have happend : ∀ {m : ν} {owner : Owner} {tasks : List (ReplicateTask ν Cmd)},
      (∀ task ∈ tasks, task ∈ (s.nodes m).tasks ∨ ∀ call next payload,
        task.stage ≠ .awaiting call next payload) →
      ∀ task ∈ tasks ++ createTasks owner (M.peers m), task ∈ (s.nodes m).tasks ∨
        ∀ call next payload, task.stage ≠ .awaiting call next payload := by
    intro m owner tasks htasks task hmem
    rcases List.mem_append.1 hmem with hmem | hmem
    · exact htasks task hmem
    · obtain ⟨peer, -, rfl⟩ := List.mem_map.1 hmem
      exact .inr fun _ _ _ => nofun
  have hset : ∀ {m : ν} {k : ℕ} {task' : ReplicateTask ν Cmd},
      ∀ task ∈ (s.nodes m).tasks.set k task', task ∈ (s.nodes m).tasks ∨ task = task' :=
    fun task hmem => List.mem_or_eq_of_mem_set hmem
  cases h with
  | electionTimeout => exact key (.idle fun _ hmem => .inl hmem)
  | requestVote => exact key (.idle fun _ hmem => .inl hmem)
  | electionWon => exact key (.idle (hfilter _ _))
  | electionLost => exact key (.idle fun _ hmem => .inl hmem)
  | appendEntry => exact key (.idle (happend fun _ hmem => .inl hmem))
  | heartbeat => exact key (.idle (happend (hfilter _ _)))
  | heartbeatExit => exact key (.idle (hfilter _ _))
  | replicateStart => exact key (.call _ _ hset rfl)
  | appendEntries => exact key (.idle fun _ hmem => .inl hmem)
  | replicateEnd =>
      refine key (.idle fun task hmem => ?_)
      rcases hset task hmem with hmem | rfl
      · exact .inl hmem
      · exact .inr fun _ _ _ => nofun
  | appendEnd => exact key (.idle (hfilter _ _))

theorem TasksWait.step {a : Action ν Cmd} (hI : TasksWait (s.nodes n)) (h : Moves M s a s') :
    TasksWait (s'.nodes n) := by
  have hterm := (h.keepsVote n).1
  intro task htask call next payload hstage
  have hold : task ∈ (s.nodes n).tasks →
      payload.prevLogIndex = (next : ℤ) - 1 ∧ payload.term ≤ (s'.nodes n).raft.currentTerm :=
    fun hmem =>
      let ⟨hprev, hle⟩ := hI task hmem call next payload hstage
      ⟨hprev, hle.trans hterm⟩
  cases h.tasks n with
  | idle htasks =>
      rcases htasks task htask with hmem | hnot
      · exact hold hmem
      · exact absurd hstage (hnot call next payload)
  | call owner peer htasks hraft =>
      rcases htasks task htask with hmem | rfl
      · exact hold hmem
      · cases hstage
        exact ⟨rfl, hterm⟩

theorem tasksWait_run {ok : Cluster ν Cmd → Action ν Cmd → Prop}
    (h : Run (Raft.step M) ok (initial callback) s) (n : ν) : TasksWait (s.nodes n) :=
  h.invariant (I := fun s => ∀ n, TasksWait (s.nodes n))
    (fun _ _ _ hI _ hstep n => (hI n).step (moves_of_step hstep)) (fun _ _ htask => nomatch htask) n

/-! ### The changes of `match_index` -/

theorem acknowledgement_eq_some {a : Action ν Cmd} {call : ℕ} {payload : AppendEntries ν Cmd}
    (h : acknowledgement s n peer a = some (call, payload)) :
    ∃ k reply owner next, a = .replicateEnd n k reply ∧ reply.any (·.success) = true ∧
      (s.nodes n).tasks[k]? = some ⟨owner, peer, .awaiting call next payload⟩ := by
  cases a with
  | replicateEnd m k reply =>
      simp only [acknowledgement, Option.ite_none_right_eq_some] at h
      obtain ⟨⟨rfl, hsuccess⟩, h⟩ := h
      split at h
      · next owner p call' next payload' htask =>
          simp only [Option.ite_none_right_eq_some, Option.some.injEq, Prod.mk.injEq] at h
          obtain ⟨rfl, rfl, rfl⟩ := h
          exact ⟨k, reply, owner, next, rfl, hsuccess, htask⟩
      · cases h
  | electionTimeout | requestVote | electionResult | appendEntry | heartbeat | replicateStart
  | appendEntries | appendEnd => cases h

/-- A node that leads afterwards led before, in the same term, and only added to its log; whatever
`match_index` is afterwards is given by the second argument. -/
def KeepsLeading (node node' : RaftNode ν Cmd) (matchIndex : ν → ℤ) : Prop :=
  node'.state = .leader → node.state = .leader ∧ node'.currentTerm = node.currentTerm ∧
    node.log <+: node'.log ∧ node'.matchIndex = matchIndex

omit [DecidableEq ν] in
theorem KeepsLeading.of_eq {node node' : RaftNode ν Cmd} (hstate : node'.state = node.state)
    (hterm : node'.currentTerm = node.currentTerm) (hlog : node.log <+: node'.log) :
    KeepsLeading node node' node'.matchIndex := fun hleader =>
  ⟨hstate ▸ hleader, hterm, hlog, rfl⟩

theorem keepsLeading_handleRequestVote (node : RaftNode ν Cmd) (data : RequestVote ν) :
    KeepsLeading node (handleRequestVote node data).1 node.matchIndex := by
  intro hleader
  obtain ⟨hbefore, hterm⟩ := keepsLeader_handleRequestVote node data hleader
  refine ⟨hbefore, hterm, ?_, handleRequestVote_frame node (·.matchIndex) (fun _ _ _ _ => rfl) data⟩
  rw [handleRequestVote_log]

omit [DecidableEq ν] in
theorem keepsLeading_handleAppendEntries (node : RaftNode ν Cmd) (data : AppendEntries ν Cmd) :
    KeepsLeading node (handleAppendEntries node data).1 node.matchIndex := by
  rcases lt_or_ge data.term node.currentTerm with hterm | hterm
  · rw [handleAppendEntries_of_stale node hterm]
    exact .of_eq rfl rfl (List.prefix_refl _)
  · intro hleader
    rw [handleAppendEntries_state node hterm] at hleader
    cases hleader

omit [DecidableEq ν] in
theorem keepsLeading_concludeAppend (node : RaftNode ν Cmd) (peers : List ν) (entryIndex : ℕ)
    (successes : Option ℕ) :
    KeepsLeading node (concludeAppend peers node entryIndex successes).1 node.matchIndex := by
  intro hleader
  rw [concludeAppend_state] at hleader
  refine ⟨hleader, concludeAppend_currentTerm .., ?_, concludeAppend_matchIndex ..⟩
  rw [concludeAppend_log]

/-- What a reply does to `match_index` is what it acknowledges. -/
theorem matchIndex_replicateReply {k : ℕ} {reply : Option AppendReply} {owner : Owner}
    {call next : ℕ} {payload : AppendEntries ν Cmd}
    (htask : (s.nodes n).tasks[k]? = some ⟨owner, peer, .awaiting call next payload⟩)
    (hprev : payload.prevLogIndex = (next : ℤ) - 1) (p : ν) :
    (replicateReply (s.nodes n).raft peer next payload.entries.length reply).1.matchIndex p =
      ((acknowledgement s n p (.replicateEnd n k reply)).map (·.2.lastIndex)).getD
        ((s.nodes n).raft.matchIndex p) := by
  simp only [acknowledgement, htask, true_and]
  rcases replicateReply_cases (s.nodes n).raft peer next payload.entries.length reply with
    ⟨r, rfl, hsuccess, hmatch⟩ | ⟨hmatch, hfalse⟩
  · rw [hmatch, if_pos (by simpa using hsuccess)]
    by_cases hp : p = peer
    · subst hp
      rw [Function.update_self, if_pos rfl]
      simp only [Option.map_some, Option.getD_some, AppendEntries.lastIndex, hprev]
      omega
    · rw [Function.update_of_ne hp, if_neg (Ne.symm hp)]
      rfl
  · have hnot : reply.any (·.success) ≠ true := by
      intro hsuccess
      obtain ⟨r, rfl, hr⟩ := (Option.any_eq_true _ _).1 hsuccess
      simp [replicateReply, hr] at hfalse
    rw [hmatch, if_neg hnot]
    rfl

/-- **How `match_index` changes while a node leads**: a node that leads after a step has won an
election in it, or it led before, in the same term, has only added to its log, and `match_index` of
a peer is what the step acknowledges. -/
theorem Moves.matchIndex {a : Action ν Cmd} (h : Moves M s a s') (hwait : TasksWait (s.nodes n)) :
    (∃ replies, a = .electionResult n replies ∧ (s.nodes n).election.isSome = true ∧
      s'.nodes n = (s.nodes n).won n (M.peers n)) ∨
    KeepsLeading (s.nodes n).raft (s'.nodes n).raft fun p =>
      ((acknowledgement s n p a).map (·.2.lastIndex)).getD ((s.nodes n).raft.matchIndex p) := by
  -- a step that acknowledges nothing to `n`
  have quiet : ∀ {m : ν} {p : Process ν Cmd}, (∀ q, acknowledgement s n q a = none) →
      KeepsLeading (s.nodes m).raft p.raft (s.nodes m).raft.matchIndex →
      KeepsLeading (s.nodes n).raft ((s.set m p).nodes n).raft fun q =>
        ((acknowledgement s n q a).map (·.2.lastIndex)).getD ((s.nodes n).raft.matchIndex q) := by
    intro m p hnone hp
    simp only [hnone, Option.map_none, Option.getD_none]
    by_cases hn : n = m
    · subst hn
      rwa [Cluster.set_nodes_self]
    · rw [Cluster.set_nodes_of_ne hn]
      exact .of_eq rfl rfl (List.prefix_refl _)
  have refl : ∀ m, KeepsLeading (s.nodes m).raft (s.nodes m).raft (s.nodes m).raft.matchIndex :=
    fun m => .of_eq rfl rfl (List.prefix_refl _)
  cases h with
  | electionTimeout => exact .inr (quiet (fun _ => rfl) nofun)
  | requestVote => exact .inr (quiet (fun _ => rfl) (keepsLeading_handleRequestVote _ _))
  | @electionWon m replies payload hel hnodup hreplies hwon =>
      by_cases hn : n = m
      · subst hn
        exact .inl ⟨replies, rfl, by rw [hel]; rfl, Cluster.set_nodes_self _ _⟩
      · rw [Cluster.set_nodes_of_ne hn]
        exact .inr (refl n)
  | @electionLost m => exact .inr (quiet (fun _ => rfl) (refl m))
  | appendEntry => exact .inr (quiet (fun _ => rfl) (.of_eq rfl rfl (List.prefix_append _ _)))
  | @heartbeat m => exact .inr (quiet (fun _ => rfl) (refl m))
  | @heartbeatExit m => exact .inr (quiet (fun _ => rfl) (refl m))
  | @replicateStart m => exact .inr (quiet (fun _ => rfl) (refl m))
  | appendEntries => exact .inr (quiet (fun _ => rfl) (keepsLeading_handleAppendEntries _ _))
  | @replicateEnd m k reply owner peer call next payload htask hreply =>
      refine .inr ?_
      by_cases hn : n = m
      · subst hn
        have hprev := (hwait _ (List.mem_of_getElem? htask) call next payload rfl).1
        rw [Cluster.set_nodes_self]
        intro hleader
        rw [replicateReply_state] at hleader
        refine ⟨hleader, replicateReply_currentTerm .., ?_,
          funext (matchIndex_replicateReply htask hprev)⟩
        rw [replicateReply_log]
      · have hnone : ∀ q, acknowledgement s n q (.replicateEnd m k reply) = none := by
          intro q
          rw [acknowledgement, if_neg fun hboth => hn hboth.1.symm]
        simp only [Cluster.set_nodes_of_ne hn, hnone]
        exact refl n
  | @appendEnd m =>
      exact .inr (quiet (fun _ => rfl) (keepsLeading_concludeAppend (s.nodes m).raft _ _ _))

/-! ### Terms in the logs -/

/-- The node leads, or its election is pending. -/
def Process.stands (p : Process ν Cmd) : Prop :=
  p.raft.state = .leader ∨ p.election.isSome = true

/-- How the term and the log of a node change when it takes a step. -/
inductive TermMove (s : Cluster ν Cmd) (a : Action ν Cmd) (n : ν) (p p' : Process ν Cmd) : Prop
  /-- The node goes to a later term. -/
  | later (hterm : p.raft.currentTerm < p'.raft.currentTerm)
  /-- It stays in its term, and only adds to its log. -/
  | kept (hterm : p'.raft.currentTerm = p.raft.currentTerm) (hstands : p'.stands → p.stands)
      (hlog : p.raft.log <+: p'.raft.log)
  /-- It takes the log of a leader of its own term. -/
  | follows {call : ℕ} {payload : AppendEntries ν Cmd} (ha : a = .appendEntries call)
      (hcall : s.appendCalls[call]? = some ⟨n, payload⟩)
      (hsame : payload.term = p.raft.currentTerm)
      (hterm : p'.raft.currentTerm = p.raft.currentTerm)
      (hstate : p'.raft.state = .follower) (helection : p'.election = p.election)

omit [DecidableEq ν] in
theorem TermMove.of_eq {a : Action ν Cmd} {p p' : Process ν Cmd}
    (hterm : p'.raft.currentTerm = p.raft.currentTerm) (hstate : p'.raft.state = p.raft.state)
    (helection : p'.election = p.election) (hlog : p.raft.log <+: p'.raft.log) :
    TermMove s a n p p' :=
  .kept hterm (by rw [Process.stands, Process.stands, hstate, helection]; exact id) hlog

theorem termMove_handleRequestVote {a : Action ν Cmd} (p : Process ν Cmd) (data : RequestVote ν) :
    TermMove s a n p { p with raft := (handleRequestVote p.raft data).1 } := by
  have hlog : p.raft.log <+: (handleRequestVote p.raft data).1.log := by
    rw [handleRequestVote_log]
  rcases lt_or_ge p.raft.currentTerm data.term with hterm | hterm
  · refine .later ?_
    rw [handleRequestVote_currentTerm]
    exact lt_max_of_lt_right hterm
  · refine .of_eq ?_ ?_ rfl hlog
    · exact (handleRequestVote_currentTerm p.raft data).trans (max_eq_left hterm)
    · exact (handleRequestVote_state p.raft data).trans (if_neg (not_lt.2 hterm))

theorem Moves.term {a : Action ν Cmd} (h : Moves M s a s') (n : ν) :
    TermMove s a n (s.nodes n) (s'.nodes n) := by
  have key : ∀ {m : ν} {p : Process ν Cmd}, TermMove s a m (s.nodes m) p →
      TermMove s a n (s.nodes n) ((s.set m p).nodes n) := fun hp =>
    Cluster.set_forall (P := fun m p => TermMove s a m (s.nodes m) p)
      (fun m => .of_eq rfl rfl rfl (List.prefix_refl _)) hp n
  cases h with
  | electionTimeout => exact key (.later (Nat.lt_succ_self _))
  | @requestVote call voter payload =>
      exact key (termMove_handleRequestVote (s.nodes voter) payload)
  | electionWon hel =>
      exact key (.kept rfl (fun _ => .inr (by rw [hel]; rfl)) (List.prefix_refl _))
  | electionLost =>
      refine key (.kept rfl (fun hstands => ?_) (List.prefix_refl _))
      exact hstands.elim .inl nofun
  | appendEntry => exact key (.of_eq rfl rfl rfl (List.prefix_append _ _))
  | heartbeat => exact key (.of_eq rfl rfl rfl (List.prefix_refl _))
  | heartbeatExit => exact key (.of_eq rfl rfl rfl (List.prefix_refl _))
  | replicateStart => exact key (.of_eq rfl rfl rfl (List.prefix_refl _))
  | @appendEntries call peer payload hcall =>
      refine key ?_
      rcases lt_trichotomy payload.term (s.nodes peer).raft.currentTerm with hterm | hterm | hterm
      · rw [handleAppendEntries_of_stale _ hterm]
        exact .of_eq rfl rfl rfl (List.prefix_refl _)
      · exact .follows rfl hcall hterm
          ((handleAppendEntries_currentTerm _ _).trans (max_eq_left hterm.le))
          (handleAppendEntries_state _ hterm.ge) rfl
      · refine .later ?_
        rw [handleAppendEntries_currentTerm]
        exact lt_max_of_lt_right hterm
  | replicateEnd =>
      exact key (.of_eq (replicateReply_currentTerm ..) (replicateReply_state ..) rfl
        (by rw [replicateReply_log]))
  | appendEnd =>
      exact key (.of_eq (concludeAppend_currentTerm ..) (concludeAppend_state ..) rfl
        (by rw [concludeAppend_log]))

/-- The entries that the entry loop leaves in the log come from the log or from the payload. -/
theorem mem_appendLoop (entries : List (LogEntry Cmd)) :
    ∀ (log : List (LogEntry Cmd)) (index : ℕ), ∀ e ∈ appendLoop log index entries,
      e ∈ log ∨ e ∈ entries := by
  induction entries with
  | nil => exact fun _ _ _ hmem => .inl hmem
  | cons entry entries ih =>
      intro log index e hmem
      simp only [appendLoop] at hmem
      rcases ih _ _ e hmem with hmem | hmem
      · have hkept : ∀ log' : List (LogEntry Cmd), log' ⊆ log →
            e ∈ (if index = log'.length then log' ++ [entry] else log') →
            e ∈ log ∨ e ∈ entry :: entries := by
          intro log' hsub hmem
          split at hmem
          · rcases List.mem_append.1 hmem with hmem | hmem
            · exact .inl (hsub hmem)
            · exact .inr (List.mem_singleton.1 hmem ▸ List.mem_cons_self ..)
          · exact .inl (hsub hmem)
        refine hkept _ ?_ hmem
        split
        · split
          · exact List.take_subset _ _
          · exact fun _ h => h
        · exact fun _ h => h
      · exact .inr (List.mem_cons_of_mem _ hmem)

omit [DecidableEq ν] in
theorem mem_log_handleAppendEntries (node : RaftNode ν Cmd) (data : AppendEntries ν Cmd) :
    ∀ e ∈ (handleAppendEntries node data).1.log, e ∈ node.log ∨ e ∈ data.entries := by
  intro e hmem
  rcases lt_or_ge data.term node.currentTerm with hterm | hterm
  · rw [handleAppendEntries_of_stale node hterm] at hmem
    exact .inl hmem
  · cases hprev : prevMatches node.log data.prevLogIndex data.prevLogTerm with
    | false =>
        rw [handleAppendEntries_of_mismatch node hterm hprev] at hmem
        exact .inl hmem
    | true =>
        rw [handleAppendEntries_of_match node hterm hprev, applyCommitted_log] at hmem
        exact mem_appendLoop _ _ _ e hmem

/-- **Where the entries of a log come from**: the leader has added them in its term, or they were
in a payload. -/
theorem Moves.mem_log {a : Action ν Cmd} (h : Moves M s a s') (n : ν) :
    ∀ e ∈ (s'.nodes n).raft.log, e ∈ (s.nodes n).raft.log ∨
      ((s.nodes n).raft.state = .leader ∧ e.term = (s.nodes n).raft.currentTerm) ∨
      ∃ c ∈ s.appendCalls, e ∈ c.payload.entries := by
  have key : ∀ {m : ν} {p : Process ν Cmd},
      (∀ e ∈ p.raft.log, e ∈ (s.nodes m).raft.log ∨
        ((s.nodes m).raft.state = .leader ∧ e.term = (s.nodes m).raft.currentTerm) ∨
        ∃ c ∈ s.appendCalls, e ∈ c.payload.entries) →
      ∀ e ∈ ((s.set m p).nodes n).raft.log, e ∈ (s.nodes n).raft.log ∨
        ((s.nodes n).raft.state = .leader ∧ e.term = (s.nodes n).raft.currentTerm) ∨
        ∃ c ∈ s.appendCalls, e ∈ c.payload.entries := fun hp =>
    Cluster.set_forall (P := fun m p => ∀ e ∈ p.raft.log, e ∈ (s.nodes m).raft.log ∨
        ((s.nodes m).raft.state = .leader ∧ e.term = (s.nodes m).raft.currentTerm) ∨
        ∃ c ∈ s.appendCalls, e ∈ c.payload.entries)
      (fun _ _ hmem => .inl hmem) hp n
  cases h with
  | electionTimeout => exact key fun _ hmem => .inl hmem
  | requestVote =>
      refine key fun _ hmem => .inl ?_
      rwa [handleRequestVote_log] at hmem
  | electionWon => exact key fun _ hmem => .inl hmem
  | electionLost => exact key fun _ hmem => .inl hmem
  | appendEntry hleader =>
      refine key fun e hmem => ?_
      rcases List.mem_append.1 hmem with hmem | hmem
      · exact .inl hmem
      · exact .inr (.inl ⟨hleader, congrArg LogEntry.term (List.mem_singleton.1 hmem)⟩)
  | heartbeat => exact key fun _ hmem => .inl hmem
  | heartbeatExit => exact key fun _ hmem => .inl hmem
  | replicateStart => exact key fun _ hmem => .inl hmem
  | @appendEntries call peer payload hcall =>
      refine key fun e hmem => ?_
      rcases mem_log_handleAppendEntries _ _ e hmem with hmem | hmem
      · exact .inl hmem
      · exact .inr (.inr ⟨_, List.mem_of_getElem? hcall, hmem⟩)
  | replicateEnd =>
      refine key fun _ hmem => .inl ?_
      rwa [replicateReply_log] at hmem
  | appendEnd =>
      refine key fun _ hmem => .inl ?_
      rwa [concludeAppend_log] at hmem

/-- **What a step sends**: the payload of a replication task. -/
theorem Moves.mem_appendCalls {a : Action ν Cmd} (h : Moves M s a s') :
    ∀ c ∈ s'.appendCalls, c ∈ s.appendCalls ∨
      ∃ n peer, c = ⟨peer, replicateToPeer n (s.nodes n).raft peer⟩ := by
  cases h
  case replicateStart n k owner peer htask =>
    intro c hmem
    rcases List.mem_append.1 hmem with hmem | hmem
    · exact .inl hmem
    · exact .inr ⟨n, peer, List.mem_singleton.1 hmem⟩
  all_goals exact fun _ hmem => .inl hmem

/-- **What a step answers**: a call that is in the network. -/
theorem Moves.mem_appendReplies {a : Action ν Cmd} (h : Moves M s a s') :
    ∀ x ∈ s'.appendReplies, x ∈ s.appendReplies ∨ ∃ peer payload,
      s.appendCalls[x.1]? = some ⟨peer, payload⟩ ∧
      (handleAppendEntries (s.nodes peer).raft payload).2 = some x.2 := by
  cases h
  case appendEntries call peer payload hcall =>
    intro x hmem
    rcases List.mem_append.1 hmem with hmem | hmem
    · exact .inl hmem
    · obtain ⟨r, hr, rfl⟩ := Option.map_eq_some_iff.1 (Option.mem_toList.1 hmem)
      exact .inr ⟨peer, payload, hcall, hr⟩
  all_goals exact fun _ hmem => .inl hmem

/-- Entries are made in a positive term: every election begins one. -/
structure TermsPositive (s : Cluster ν Cmd) : Prop where
  node : ∀ n, (s.nodes n).stands → 0 < (s.nodes n).raft.currentTerm
  log : ∀ n, ∀ e ∈ (s.nodes n).raft.log, 0 < e.term
  call : ∀ c ∈ s.appendCalls, ∀ e ∈ c.payload.entries, 0 < e.term

theorem TermsPositive.step {a : Action ν Cmd} (hI : TermsPositive s) (h : Moves M s a s') :
    TermsPositive s' where
  node := by
    intro n hstands
    cases h.term n with
    | later hterm => omega
    | kept hterm hbefore hlog => exact hterm ▸ hI.node n (hbefore hstands)
    | follows ha hcall hsame hterm hstate helection =>
        rw [Process.stands, hstate, helection] at hstands
        exact hterm ▸ hI.node n (.inr (hstands.resolve_left nofun))
  log := by
    intro n e he
    rcases h.mem_log n e he with hold | ⟨hleader, hterm⟩ | ⟨c, hc, hpayload⟩
    · exact hI.log n e hold
    · exact hterm ▸ hI.node n (.inl hleader)
    · exact hI.call c hc e hpayload
  call := by
    intro c hc e he
    rcases h.mem_appendCalls c hc with hold | ⟨n, peer, rfl⟩
    · exact hI.call c hold e he
    · exact hI.log n e (List.mem_of_mem_drop he)

omit [DecidableEq ν] in
theorem termsPositive_initial : TermsPositive (initial callback) where
  node := fun _ hstands => hstands.elim nofun nofun
  log := fun _ _ he => nomatch he
  call := fun _ hc => nomatch hc

/-! ### Calls that can succeed -/

/-- The call does not ask for a previous entry, or for one with a term that an entry can have. -/
def AppendEntries.mayMatch (payload : AppendEntries ν Cmd) : Prop :=
  payload.prevLogIndex < 0 ∨ 0 < payload.prevLogTerm

omit [DecidableEq ν] in
/-- **A payload that may match covers no more than the log it was built from.** -/
theorem lastIndex_replicateToPeer (self : ν) (node : RaftNode ν Cmd) (peer : ν)
    (h : (replicateToPeer self node peer).mayMatch) :
    (replicateToPeer self node peer).lastIndex < node.log.length := by
  have hsnap := snapshot_replicateToPeer self node peer
  have hnext : node.nextIndex peer ≤ node.log.length := by
    by_contra hlt
    have hnone := hsnap.noPrev (not_le.1 hlt)
    rcases h with hneg | hpos
    · rw [hsnap.prevLogIndex] at hneg
      omega
    · omega
  rw [AppendEntries.lastIndex, hsnap.prevLogIndex, hsnap.entries, List.length_drop]
  omega

omit [DecidableEq ν] in
/-- A node only accepts what may match. -/
theorem mayMatch_of_success {node : RaftNode ν Cmd} {data : AppendEntries ν Cmd} {r : AppendReply}
    (hlog : ∀ e ∈ node.log, 0 < e.term) (h : (handleAppendEntries node data).2 = some r)
    (hsuccess : r.success = true) : data.mayMatch := by
  rcases lt_or_ge data.term node.currentTerm with hterm | hterm
  · rw [handleAppendEntries_of_stale node hterm] at h
    cases h
    cases hsuccess
  · cases hprev : prevMatches node.log data.prevLogIndex data.prevLogTerm with
    | false =>
        rw [handleAppendEntries_of_mismatch node hterm hprev] at h
        cases h
        cases hsuccess
    | true =>
        rw [prevMatches] at hprev
        split at hprev
        · split at hprev
          · cases hprev
          · next prev hget =>
              have hpos := hlog prev (List.mem_of_getElem? hget)
              rw [of_decide_eq_true hprev] at hpos
              exact .inr hpos
        · next hneg => exact .inl (not_le.1 hneg)

/-- Every successful reply answers a call that may match. -/
def RepliesMatch (s : Cluster ν Cmd) : Prop :=
  ∀ x ∈ s.appendReplies, x.2.success = true →
    ∃ c, s.appendCalls[x.1]? = some c ∧ c.payload.mayMatch

theorem RepliesMatch.step {a : Action ν Cmd} (hI : RepliesMatch s) (hpos : TermsPositive s)
    (h : Moves M s a s') : RepliesMatch s' := by
  intro x hx hsuccess
  rcases h.mem_appendReplies x hx with hold | ⟨peer, payload, hcall, hreply⟩
  · obtain ⟨c, hcall, hmatch⟩ := hI x hold hsuccess
    exact ⟨c, getElem?_of_isPrefix h.appendCalls_prefix hcall, hmatch⟩
  · have hmatch : payload.mayMatch := mayMatch_of_success (hpos.log peer) hreply hsuccess
    exact ⟨⟨peer, payload⟩, getElem?_of_isPrefix h.appendCalls_prefix hcall, hmatch⟩

/-- A leader takes a successful reply only to a call of its current term. -/
def RepliesInTerm (s : Cluster ν Cmd) : Action ν Cmd → Prop
  | .replicateEnd n k reply =>
      reply.any (·.success) = true → (s.nodes n).raft.state = .leader →
        ∀ payload ∈ (s.nodes n).tasks[k]?.bind (·.payload?),
          payload.term = (s.nodes n).raft.currentTerm
  | _ => True

/-- A node whose election is pending does not handle an AppendEntries call of its own term while it
waits for the reply to a call that it made in that term. -/
def NoRivalCall (s : Cluster ν Cmd) : Action ν Cmd → Prop
  | .appendEntries call =>
      ∀ c ∈ s.appendCalls[call]?, (s.nodes c.peer).election.isSome = true →
        c.payload.term = (s.nodes c.peer).raft.currentTerm →
        ∀ task ∈ (s.nodes c.peer).tasks, ∀ payload ∈ task.payload?,
          payload.term ≠ (s.nodes c.peer).raft.currentTerm
  | _ => True

/-- **The replies a leader takes are to calls of its term, about the log that it has.** -/
def AnswersInTerm (s : Cluster ν Cmd) (a : Action ν Cmd) : Prop :=
  RepliesInTerm s a ∧ NoRivalCall s a

instance decidableRepliesInTerm (s : Cluster ν Cmd) : DecidablePred (RepliesInTerm s)
  | .replicateEnd _ _ _ => inferInstanceAs (Decidable (_ → _ → _))
  | .electionTimeout _ | .requestVote _ _ | .electionResult _ _ | .appendEntry _ _ | .heartbeat _
  | .replicateStart _ _ | .appendEntries _ | .appendEnd _ _ => .isTrue trivial

instance decidableNoRivalCall (s : Cluster ν Cmd) : DecidablePred (NoRivalCall s)
  | .appendEntries _ => inferInstanceAs (Decidable (∀ _ ∈ _, _ → _ → ∀ _ ∈ _, _))
  | .electionTimeout _ | .requestVote _ _ | .electionResult _ _ | .appendEntry _ _ | .heartbeat _
  | .replicateStart _ _ | .replicateEnd _ _ _ | .appendEnd _ _ => .isTrue trivial

instance decidableAnswersInTerm (s : Cluster ν Cmd) (a : Action ν Cmd) :
    Decidable (AnswersInTerm s a) := inferInstanceAs (Decidable (_ ∧ _))

/-- What a node that leads, or whose election is pending, has sent in its term and waits for fits
into its log, if it can succeed. -/
def CallsFit (p : Process ν Cmd) : Prop :=
  p.stands → ∀ task ∈ p.tasks, ∀ payload ∈ task.payload?,
    payload.term = p.raft.currentTerm → payload.mayMatch → payload.lastIndex < p.raft.log.length

omit [DecidableEq ν] in
theorem exists_awaiting {task : ReplicateTask ν Cmd} {payload : AppendEntries ν Cmd}
    (h : payload ∈ task.payload?) : ∃ call next, task.stage = .awaiting call next payload := by
  obtain ⟨owner, peer, stage⟩ := task
  cases stage with
  | awaiting call next payload' =>
      obtain rfl := Option.some.inj h
      exact ⟨call, next, rfl⟩
  | created | finished => cases h

theorem CallsFit.step {a : Action ν Cmd} (hI : CallsFit (s.nodes n)) (hwait : TasksWait (s.nodes n))
    (hok : NoRivalCall s a) (h : Moves M s a s') : CallsFit (s'.nodes n) := by
  intro hstands task htask payload hpayload hterm hmatch
  obtain ⟨call, next, hstage⟩ := exists_awaiting hpayload
  -- either the task was waiting before, or it has just built its payload
  have htasks : task ∈ (s.nodes n).tasks ∨
      ∃ peer, payload = replicateToPeer n (s.nodes n).raft peer ∧
        (s'.nodes n).raft = (s.nodes n).raft := by
    cases h.tasks n with
    | idle htasks =>
        exact (htasks task htask).imp_right fun hnot => absurd hstage (hnot call next payload)
    | call owner peer htasks hraft =>
        refine (htasks task htask).imp_right fun heq => ⟨peer, ?_, hraft⟩
        rw [heq] at hpayload
        exact (Option.some.inj hpayload).symm
  rcases htasks with hmem | ⟨peer, rfl, hraft⟩
  · cases h.term n with
    | later hlater =>
        have hle := (hwait task hmem call next payload hstage).2
        omega
    | kept hsame hbefore hlog =>
        have hlt := hI (hbefore hstands) task hmem payload hpayload (hterm.trans hsame) hmatch
        have hle := hlog.length_le
        omega
    | @follows call' payload' ha hcall hcallTerm hsame hstate helection =>
        -- a follower only stands when its election is pending
        subst ha
        rw [Process.stands, hstate, helection] at hstands
        exact absurd (hterm.trans hsame)
          (hok _ hcall (hstands.resolve_left nofun) hcallTerm task hmem payload hpayload)
  · rw [hraft]
    exact lastIndex_replicateToPeer n _ peer hmatch

/-! ### What `match_index` claims -/

/-- The peer has acknowledged an AppendEntries call that the node made in the term it is in, and
the call covers the index. -/
def Acknowledged (s : Cluster ν Cmd) (n peer : ν) (i : ℕ) : Prop :=
  ∃ (call : ℕ) (payload : AppendEntries ν Cmd) (reply : AppendReply),
    s.appendCalls[call]? = some ⟨peer, payload⟩ ∧ payload.leaderId = n ∧
    payload.term = (s.nodes n).raft.currentTerm ∧ (call, reply) ∈ s.appendReplies ∧
    reply.success = true ∧ (i : ℤ) ≤ payload.prevLogIndex + payload.entries.length

/-- **`match_index` does not claim too much**: what a leader takes a peer to have is in the log of
the leader, and the peer has acknowledged it in the term of the leader. -/
def MatchAcknowledged (M : Membership ν) (s : Cluster ν Cmd) : Prop :=
  ∀ n, (s.nodes n).raft.state = .leader → ∀ peer ∈ M.peers n, ∀ i : ℕ,
    (i : ℤ) ≤ (s.nodes n).raft.matchIndex peer →
      i < (s.nodes n).raft.log.length ∧ Acknowledged s n peer i

/-- Replies stay in the network. -/
theorem Moves.appendReplies_subset {a : Action ν Cmd} (h : Moves M s a s') :
    s.appendReplies ⊆ s'.appendReplies := by
  cases h
  case appendEntries => exact List.subset_append_left _ _
  all_goals exact List.Subset.refl _

theorem Acknowledged.step {a : Action ν Cmd} {i : ℕ} (hI : Acknowledged s n peer i)
    (h : Moves M s a s')
    (hterm : (s'.nodes n).raft.currentTerm = (s.nodes n).raft.currentTerm) :
    Acknowledged s' n peer i := by
  obtain ⟨call, payload, reply, hcall, hid, hpayload, hreply, hsuccess, hi⟩ := hI
  exact ⟨call, payload, reply, getElem?_of_isPrefix h.appendCalls_prefix hcall, hid,
    hpayload.trans hterm.symm, h.appendReplies_subset hreply, hsuccess, hi⟩

/-- **A successful reply of its own term tells a leader the truth.** -/
theorem acknowledged_of_reply {a : Action ν Cmd} {call : ℕ} {payload : AppendEntries ν Cmd} {i : ℕ}
    (hF : FrameInv M s) (hfit : CallsFit (s.nodes n)) (hmatch : RepliesMatch s)
    (hok : RepliesInTerm s a) (h : Moves M s a s') (hleader : (s.nodes n).raft.state = .leader)
    (hack : acknowledgement s n peer a = some (call, payload)) (hi : (i : ℤ) ≤ payload.lastIndex) :
    i < (s.nodes n).raft.log.length ∧ Acknowledged s n peer i := by
  obtain ⟨k, reply, owner, next, rfl, hany, htask⟩ := acknowledgement_eq_some hack
  obtain ⟨r, rfl, hsuccess⟩ := (Option.any_eq_true _ _).1 hany
  have hmem := List.mem_of_getElem? htask
  obtain ⟨hcall, hid⟩ := (hF.task n _ hmem).call call next payload rfl
  have hreply : (call, r) ∈ s.appendReplies := by
    cases h with
    | replicateEnd htask' hreply =>
        rw [htask] at htask'
        cases htask'
        exact hreply r rfl
  have hterm : payload.term = (s.nodes n).raft.currentTerm :=
    hok hany hleader payload (by rw [htask]; exact rfl)
  have hlast : payload.lastIndex < (s.nodes n).raft.log.length := by
    obtain ⟨c, hc, hmay⟩ := hmatch (call, r) hreply hsuccess
    obtain rfl := Option.some.inj (hcall.symm.trans hc)
    exact hfit (.inl hleader) _ hmem payload rfl hterm hmay
  exact ⟨by omega, call, payload, r, hcall, hid, hterm, hreply, hsuccess, hi⟩

theorem MatchAcknowledged.step {a : Action ν Cmd} (hI : MatchAcknowledged M s)
    (hF : FrameInv M s) (hwait : ∀ n, TasksWait (s.nodes n)) (hfit : ∀ n, CallsFit (s.nodes n))
    (hmatch : RepliesMatch s) (hok : RepliesInTerm s a) (h : Moves M s a s') :
    MatchAcknowledged M s' := by
  intro n hleader peer hpeer i hi
  rcases h.matchIndex (hwait n) with ⟨replies, rfl, -, hwon⟩ | hkeeps
  · -- `_become_leader` has reset the field
    rw [hwon] at hi
    simp only [Process.won, becomeLeader, if_pos hpeer] at hi
    omega
  · obtain ⟨hbefore, hterm, hlog, hindex⟩ := hkeeps hleader
    rw [hindex] at hi
    have hold : i < (s.nodes n).raft.log.length ∧ Acknowledged s n peer i := by
      cases hack : acknowledgement s n peer a with
      | none =>
          simp only [hack, Option.map_none, Option.getD_none] at hi
          exact hI n hbefore peer hpeer i hi
      | some ack =>
          simp only [hack, Option.map_some, Option.getD_some] at hi
          exact acknowledged_of_reply hF (hfit n) hmatch hok h hbefore hack hi
    exact ⟨hold.1.trans_le hlog.length_le, hold.2.step h hterm⟩

/-- What is kept along with the property. -/
structure MatchInv (M : Membership ν) (s : Cluster ν Cmd) : Prop where
  election : ElectionInv M s
  frame : FrameInv M s
  wait : ∀ n, TasksWait (s.nodes n)
  positive : TermsPositive s
  replies : RepliesMatch s
  fit : ∀ n, CallsFit (s.nodes n)
  acknowledged : MatchAcknowledged M s

theorem MatchInv.step {a : Action ν Cmd} (hI : MatchInv M s) (hok : AnswersInTerm s a)
    (h : Moves M s a s') : MatchInv M s' where
  election := hI.election.step h
  frame := hI.frame.step hI.election h
  wait := fun n => (hI.wait n).step h
  positive := hI.positive.step h
  replies := hI.replies.step hI.positive h
  fit := fun n => (hI.fit n).step (hI.wait n) hok.2 h
  acknowledged := hI.acknowledged.step hI.frame hI.wait hI.fit hI.replies hok.1 h

omit [DecidableEq ν] in
theorem matchInv_initial : MatchInv M (initial callback) where
  election := electionInv_initial
  frame := frameInv_initial
  wait := fun _ _ htask => nomatch htask
  positive := termsPositive_initial
  replies := fun _ hx => nomatch hx
  fit := fun _ _ _ htask => nomatch htask
  acknowledged := fun _ hleader => nomatch hleader

/-- **`match_index` does not claim too much** in the runs in which the replies a leader takes are
to calls of its term, about the log that it has. -/
theorem matchAcknowledged (h : Run (Raft.step M) AnswersInTerm (initial callback) s) :
    MatchAcknowledged M s :=
  (h.invariant (I := MatchInv M) (fun _ _ _ hI hok hstep => hI.step hok (moves_of_step hstep))
    matchInv_initial).acknowledged

/-! ### Replies to an earlier leader, and to a candidate -/

/-- Node 0 leads term 1, appends a command, and node 1 accepts it. -/
def acceptedAppend : List (Action (Fin 3) ℕ) :=
  [.electionTimeout 0, .requestVote 0 1, .requestVote 0 2, .electionResult 0 [(1, ⟨1, true⟩)],
    .appendEntry 0 7, .replicateStart 0 0, .appendEntries 0]

/-- Before the reply arrives, node 0 is deposed in term 2 and wins term 3. -/
def lateReply : List (Action (Fin 3) ℕ) :=
  acceptedAppend ++ [.electionTimeout 2, .requestVote 1 0, .electionTimeout 0, .requestVote 2 1,
    .electionResult 0 [(1, ⟨3, true⟩)], .replicateEnd 0 0 (some ⟨1, true⟩)]

/-- Node 0 leads term 1 and node 1 leads term 2, each with a log of its own and with tasks that
have not started. -/
def twoLogs : List (Action (Fin 3) ℕ) :=
  [.electionTimeout 0, .requestVote 0 2, .electionResult 0 [(2, ⟨1, true⟩)], .appendEntry 0 7,
    .appendEntry 0 8, .electionTimeout 1, .electionResult 1 [], .electionTimeout 1,
    .requestVote 2 2, .electionResult 1 [(2, ⟨2, true⟩)], .appendEntry 1 9, .requestVote 2 0]

/-- Then node 0 is a candidate in term 3.  A task of its first leadership sends its log to node 2,
a task of node 1 overwrites it, and node 0 wins before the reply of node 2 arrives. -/
def rivalCall : List (Action (Fin 3) ℕ) :=
  twoLogs ++ [.electionTimeout 0, .replicateStart 0 1, .appendEntries 0, .requestVote 3 2,
    .requestVote 3 1, .replicateStart 1 0, .appendEntries 1, .electionResult 0 [(2, ⟨3, true⟩)],
    .replicateEnd 0 1 (some ⟨3, true⟩)]

/-- The leader of term 3 takes the reply to the leader of term 1 for its own. -/
theorem matchAcknowledged_fails :
    ¬ ∀ s : Cluster (Fin 3) ℕ, Run (Raft.step trio) anyAction (initial returning) s →
      MatchAcknowledged trio s := by
  intro hall
  obtain ⟨s, hs, hleader, hindex, hterm⟩ := Run.exists_of_exec (Raft.step trio) anyAction
    (initial returning) lateReply (fun s => (s.nodes 0).raft.state = .leader ∧
      (s.nodes 0).raft.matchIndex 1 = 0 ∧
      ∀ c ∈ s.appendCalls, c.payload.term ≠ (s.nodes 0).raft.currentTerm) (by decide)
  obtain ⟨-, call, payload, reply, hcall, -, hpayload, -⟩ :=
    hall s hs 0 hleader 1 (by decide) 0 hindex.ge
  exact hterm _ (List.mem_of_getElem? hcall) hpayload

/-- Even when all replies are to calls of the current term, `match_index` can lie beyond the end of
the log. -/
theorem matchIndex_rivalCall :
    ¬ ∀ s : Cluster (Fin 3) ℕ, Run (Raft.step trio) RepliesInTerm (initial returning) s →
      MatchAcknowledged trio s := by
  intro hall
  obtain ⟨s, hs, hleader, hindex, hlength⟩ := Run.exists_of_exec (Raft.step trio) RepliesInTerm
    (initial returning) rivalCall (fun s => (s.nodes 0).raft.state = .leader ∧
      (s.nodes 0).raft.matchIndex 2 = 1 ∧ (s.nodes 0).raft.log.length = 1) (by decide)
  obtain ⟨hlt, -⟩ := hall s hs 0 hleader 2 (by decide) 1 hindex.ge
  omega

/-- When the reply arrives in term 1, it says what `match_index` claims then. -/
theorem matchAcknowledged_acceptedAppend :
    ∃ s : Cluster (Fin 3) ℕ, Run (Raft.step trio) AnswersInTerm (initial returning) s ∧
      (s.nodes 0).raft.state = .leader ∧ (s.nodes 0).raft.matchIndex 1 = 0 ∧
      MatchAcknowledged trio s := by
  obtain ⟨s, hs, hleader, hindex⟩ := Run.exists_of_exec (Raft.step trio) AnswersInTerm
    (initial returning) (acceptedAppend ++ [.replicateEnd 0 0 (some ⟨1, true⟩)])
    (fun s => (s.nodes 0).raft.state = .leader ∧ (s.nodes 0).raft.matchIndex 1 = 0) (by decide)
  exact ⟨s, hs, hleader, hindex, matchAcknowledged hs⟩

end Raft
