/-
**A majority can always commit another command.**

From every state in which the cluster can be, and whatever is in flight, the nodes of a majority can
go on without the other ones and without the messages that are in flight: they make one of them
leader, bring its log to the rest of them, and a call of `append_entry` with any command returns
`True`.  So neither lost messages nor nodes that have stopped can bring the cluster into a state that
it does not get out of.

The run has three parts.  A leader that is in the way is deposed, by a vote request of a later term
or, where all nodes of the majority lead, by a heartbeat; the node with the best log is elected
(`DistSync/RaftElectable.lean`); and the heartbeats of the new leader repair the other logs, as in
`DistSync/RaftRepair.lean`, until all of them take the new entry at once.

Main definitions:

* `Raft.Called` — what a call of `_replicate_to_peer` does to the two nodes;
* `Raft.Led` — a leader that a majority is ready to follow;
* `Raft.HasLog` — a peer that has the whole log of the leader;
* `Raft.Commits` — a command is the last one that was acknowledged.

Main results:

* `Raft.exists_call` — a replication task can be run to its end;
* `Raft.exists_repaired` — a leader can bring its log to every node of a majority;
* `Raft.exists_committed` — and then any command to be acknowledged;
* `Raft.availability` — **a majority can always commit another command**.
-/

import DistSync.RaftCounting
import DistSync.RaftElectable
import DistSync.RaftPointers
import DistSync.RaftRepair

set_option relaxedAutoImplicit false
set_option autoImplicit false

namespace Raft

open Runs TermLog

variable {ν Cmd : Type} [DecidableEq ν] {M : Membership ν} {s s' s'' : Cluster ν Cmd}
  {Q : Finset ν} {n q : ν} {callback : ν → ApplyCallback Cmd}

/-! ### What every run keeps -/

omit [DecidableEq ν] in
theorem handleAppendEntries_applyCallback (node : RaftNode ν Cmd) (data : AppendEntries ν Cmd) :
    (handleAppendEntries node data).1.applyCallback = node.applyCallback := by
  rcases lt_or_ge data.term node.currentTerm with hterm | hterm
  · rw [handleAppendEntries_of_stale node hterm]
  · cases hprev : prevMatches node.log data.prevLogIndex data.prevLogTerm with
    | false =>
        rw [handleAppendEntries_of_mismatch node hterm hprev]
        rfl
    | true =>
        rw [handleAppendEntries_of_match node hterm hprev,
          applyCommitted_frame _ (·.applyCallback) fun _ _ _ => rfl]
        rfl

/-- The callback of a node is the one it was given. -/
theorem applyCallback_run {ok : Cluster ν Cmd → Action ν Cmd → Prop}
    (h : Run (Raft.step M) ok (initial callback) s) (m : ν) :
    (s.nodes m).raft.applyCallback = callback m := by
  refine h.invariant (I := fun s => ∀ m, (s.nodes m).raft.applyCallback = callback m)
    (fun s a s' hI _ hstep => ?_) (fun _ => rfl) m
  have key : ∀ {n : ν} {p : Process ν Cmd}, p.raft.applyCallback = callback n →
      ∀ m, ((s.set n p).nodes m).raft.applyCallback = callback m := fun hp =>
    Cluster.set_forall (P := fun m p => p.raft.applyCallback = callback m) hI hp
  cases moves_of_step hstep with
  | electionTimeout => exact key (hI _)
  | requestVote =>
      exact key ((handleRequestVote_frame _ (·.applyCallback) (fun _ _ _ _ => rfl) _).trans (hI _))
  | electionWon => exact key (hI _)
  | electionLost => exact key (hI _)
  | appendEntry => exact key (hI _)
  | heartbeat => exact key (hI _)
  | heartbeatExit => exact key (hI _)
  | replicateStart => exact key (hI _)
  | appendEntries => exact key ((handleAppendEntries_applyCallback _ _).trans (hI _))
  | replicateEnd =>
      exact key ((replicateReply_frame _ _ _ _ _ (·.applyCallback) fun _ _ _ => rfl).trans (hI _))
  | appendEnd =>
      exact key ((concludeAppend_frame _ (·.applyCallback) (fun _ _ _ _ => rfl) _ _ _).trans (hI _))

/-- A leader has a heartbeat loop. -/
theorem heartbeat_run {ok : Cluster ν Cmd → Action ν Cmd → Prop}
    (h : Run (Raft.step M) ok (initial callback) s) (m : ν)
    (hm : (s.nodes m).raft.state = .leader) : (s.nodes m).heartbeat = true := by
  refine h.invariant (I := fun s => ∀ m, (s.nodes m).raft.state = .leader →
    (s.nodes m).heartbeat = true) (fun s a s' hI _ hstep => ?_) (fun m hm => by cases hm) m hm
  have key : ∀ {n : ν} {p : Process ν Cmd}, (p.raft.state = .leader → p.heartbeat = true) →
      ∀ m, ((s.set n p).nodes m).raft.state = .leader → ((s.set n p).nodes m).heartbeat = true :=
    fun hp => Cluster.set_forall (P := fun _ p => p.raft.state = .leader → p.heartbeat = true) hI hp
  cases moves_of_step hstep with
  | electionTimeout => exact key fun hleader => by cases hleader
  | requestVote => exact key fun hleader => hI _ (keepsLeader_handleRequestVote _ _ hleader).1
  | electionWon => exact key fun _ => rfl
  | electionLost => exact key (hI _)
  | appendEntry => exact key (hI _)
  | heartbeat => exact key (hI _)
  | heartbeatExit _ hstate => exact key fun hleader => absurd hleader hstate
  | replicateStart => exact key (hI _)
  | appendEntries => exact key fun hleader => hI _ (keepsLeader_handleAppendEntries _ _ hleader).1
  | replicateEnd => exact key fun hleader => hI _ ((replicateReply_state ..).symm.trans hleader)
  | appendEnd => exact key fun hleader => hI _ ((concludeAppend_state ..).symm.trans hleader)

/-! ### One call -/

/-- What is left of a call of `_replicate_to_peer`, from `n` to `q`, when its task has run: the two
nodes have exchanged a message and its answer, and the task has finished. -/
structure Called (n q : ν) (k : ℕ) (owner : Owner) (s s' : Cluster ν Cmd) : Prop where
  sender : s'.nodes n = { s.nodes n with
    raft := (repairCall n q ((s.nodes n).raft, (s.nodes q).raft)).1.1
    tasks := (s.nodes n).tasks.set k ⟨owner, q,
      .finished (repairCall n q ((s.nodes n).raft, (s.nodes q).raft)).2⟩ }
  receiver : s'.nodes q = { s.nodes q with
    raft := (repairCall n q ((s.nodes n).raft, (s.nodes q).raft)).1.2 }
  others : ∀ m, m ≠ n → m ≠ q → s'.nodes m = s.nodes m

omit [DecidableEq ν] in
/-- The actions of a node that belongs to `Q`. -/
theorem movedBy_of_actor {s₀ : Cluster ν Cmd} {a : Action ν Cmd} (hok : InTerm M s a)
    (ha : actor s a = some n) (hn : n ∈ Q) (hfresh : Fresh Q s₀ s a) : MovedBy M Q s₀ s a := by
  refine ⟨hok, fun m hm => ?_, hfresh⟩
  rw [ha] at hm
  exact Option.some.inj hm ▸ hn

/-- **A replication task of a leader can be run to its end**, with its message handled by the peer
and the answer by the leader. -/
theorem exists_call {k : ℕ} {owner : Owner} (hn : n ∈ Q) (hq : q ∈ Q) (hne : q ≠ n)
    (hleader : (s.nodes n).raft.state = .leader)
    (htask : (s.nodes n).tasks[k]? = some ⟨owner, q, .created⟩) :
    ∃ s', Reaches M Q s s' ∧ Called n q k owner s s' := by
  set payload := replicateToPeer n (s.nodes n).raft q with hpayload
  set next := (s.nodes n).raft.nextIndex q with hnext
  set handled := handleAppendEntries (s.nodes q).raft payload with hhandled
  set call := s.appendCalls.length with hcall
  have hk : k < (s.nodes n).tasks.length := (List.getElem?_eq_some_iff.1 htask).1
  -- the task sends its message
  set s₁ : Cluster ν Cmd := { s.set n { s.nodes n with
      tasks := (s.nodes n).tasks.set k ⟨owner, q, .awaiting call next payload⟩ } with
    appendCalls := s.appendCalls ++ [⟨q, payload⟩] } with hs₁
  have hstart : Raft.step M s (.replicateStart n k) = some s₁ := by
    simp only [step, replicateStart, htask]
    rfl
  have hself₁ : s₁.nodes n = { s.nodes n with
      tasks := (s.nodes n).tasks.set k ⟨owner, q, .awaiting call next payload⟩ } :=
    Cluster.set_nodes_self n _
  have hother₁ : ∀ m, m ≠ n → s₁.nodes m = s.nodes m := fun m hm => Cluster.set_nodes_of_ne hm _
  have hcall₁ : s₁.appendCalls[call]? = some ⟨q, payload⟩ := by simp [hs₁, hcall]
  -- the peer handles it
  set s₂ : Cluster ν Cmd := { s₁.set q { s.nodes q with raft := handled.1 } with
    appendReplies := s₁.appendReplies ++ (handled.2.map fun r => (call, r)).toList } with hs₂
  have hhandle : Raft.step M s₁ (.appendEntries call) = some s₂ := by
    simp only [step, appendEntries, hcall₁, hother₁ q hne]
    rfl
  have hself₂ : s₂.nodes n = s₁.nodes n := Cluster.set_nodes_of_ne (Ne.symm hne) _
  have hpeer₂ : s₂.nodes q = { s.nodes q with raft := handled.1 } := Cluster.set_nodes_self q _
  have htask₂ : (s₂.nodes n).tasks[k]? = some ⟨owner, q, .awaiting call next payload⟩ := by
    rw [hself₂, hself₁]
    exact List.getElem?_set_self hk
  -- and the task resumes with the answer
  set s₃ := s₂.set n { s₂.nodes n with
      raft := (replicateReply (s₂.nodes n).raft q next payload.entries.length handled.2).1
      tasks := (s₂.nodes n).tasks.set k ⟨owner, q,
        .finished (replicateReply (s₂.nodes n).raft q next payload.entries.length handled.2).2⟩ }
    with hs₃
  have hend : Raft.step M s₂ (.replicateEnd n k handled.2) = some s₃ := by
    simp only [step, replicateEnd, htask₂]
    refine if_pos fun r hr => List.mem_append_right _ ?_
    rw [hr]
    exact List.mem_singleton_self _
  have hterm : InTerm M s₂ (.replicateEnd n k handled.2) := by
    intro _ _ payload' hpayload'
    rw [htask₂] at hpayload'
    obtain rfl : payload = payload' := Option.some.inj hpayload'
    rw [hself₂, hself₁]
    rfl
  have hfresh : Fresh Q s s₁ (.appendEntries call) := by
    refine ⟨le_rfl, fun c hc => ?_⟩
    rw [hcall₁] at hc
    obtain rfl := Option.some.inj hc
    exact hn
  have hrun : Reaches M Q s s₃ :=
    ((Run.single (movedBy_of_actor (a := .replicateStart n k) hleader rfl hn trivial) hstart).tail
      (movedBy_of_actor (a := .appendEntries call) trivial (by rw [actor, hcall₁]; rfl) hq hfresh)
        hhandle).tail (movedBy_of_actor hterm rfl hn trivial) hend
  refine ⟨s₃, hrun, ⟨?_, ?_, fun m hmn hmq => ?_⟩⟩
  · rw [hs₃, Cluster.set_nodes_self, hself₂, hself₁]
    simp only [List.set_set]
    rfl
  · rw [hs₃, Cluster.set_nodes_of_ne hne, hpeer₂]
    rfl
  · rw [hs₃, Cluster.set_nodes_of_ne hmn, ← hother₁ m hmn]
    exact Cluster.set_nodes_of_ne hmq _

/-! ### A round of heartbeats for one peer -/

/-- The steps that a task has left. -/
def ReplicateTask.work (task : ReplicateTask ν Cmd) : ℕ :=
  match task.stage with
  | .created => 2
  | .awaiting _ _ _ => 1
  | .finished _ => 0

/-- The steps that all tasks have left. -/
def tasksWork : List (ReplicateTask ν Cmd) → ℕ
  | [] => 0
  | task :: tasks => task.work + tasksWork tasks

omit [DecidableEq ν] in
theorem tasksWork_set {tasks : List (ReplicateTask ν Cmd)} {k : ℕ}
    {task task' : ReplicateTask ν Cmd} (hk : tasks[k]? = some task)
    (hwork : task'.work < task.work) :
    tasksWork (tasks.set k task') < tasksWork tasks := by
  induction tasks generalizing k with
  | nil => cases hk
  | cons first tasks ih =>
      cases k with
      | zero =>
          obtain rfl := Option.some.inj hk
          rw [List.set_cons_zero, tasksWork, tasksWork]
          omega
      | succ k =>
          have hless := ih hk
          rw [List.set_cons_succ, tasksWork, tasksWork]
          omega

/-- The states differ, as far as the nodes go, in the tasks of one of them. -/
structure SameButTasks (n : ν) (s s' : Cluster ν Cmd) : Prop where
  self : ∃ tasks, s'.nodes n = { s.nodes n with tasks := tasks }
  others : ∀ m, m ≠ n → s'.nodes m = s.nodes m

/-- The tasks of a leader can be brought to an end without any answer. -/
theorem exists_drained (hn : n ∈ Q) (hleader : (s.nodes n).raft.state = .leader) :
    ∃ s', Reaches M Q s s' ∧ SameButTasks n s s' ∧
      ∀ task ∈ (s'.nodes n).tasks, task.outcome ≠ .pending := by
  refine Run.exists_of_work (I := SameButTasks n s) (fun s' => tasksWork (s'.nodes n).tasks)
    (fun s₁ hI hgoal => ?_) ⟨⟨_, rfl⟩, fun _ _ => rfl⟩
  obtain ⟨task, hmem, hpending⟩ : ∃ task ∈ (s₁.nodes n).tasks, task.outcome = .pending := by
    by_contra hnone
    exact hgoal ⟨hI, fun task htask hpending => hnone ⟨task, htask, hpending⟩⟩
  obtain ⟨⟨tasks, hself⟩, hother⟩ := hI
  obtain ⟨k, htask⟩ := List.getElem?_of_mem hmem
  have hkeep : ∀ {t' : List (ReplicateTask ν Cmd)},
      (∃ tasks, ({ s₁.nodes n with tasks := t' } : Process ν Cmd) =
        { s.nodes n with tasks := tasks }) := fun {t'} => ⟨t', by rw [hself]⟩
  have hrest : ∀ {p : Process ν Cmd} (m : ν), m ≠ n → (s₁.set n p).nodes m = s.nodes m :=
    fun m hm => (Cluster.set_nodes_of_ne hm _).trans (hother m hm)
  obtain ⟨owner, peer, stage⟩ := task
  cases stage with
  | created =>
      set payload := replicateToPeer n (s₁.nodes n).raft peer with hpayload
      have hstep : Raft.step M s₁ (.replicateStart n k) = some
          { s₁.set n { s₁.nodes n with
              tasks := (s₁.nodes n).tasks.set k ⟨owner, peer, .awaiting s₁.appendCalls.length
                ((s₁.nodes n).raft.nextIndex peer) payload⟩ } with
            appendCalls := s₁.appendCalls ++ [⟨peer, payload⟩] } := by
        simp only [step, replicateStart, htask]
        rfl
      have hleader₁ : (s₁.nodes n).raft.state = .leader := by rw [hself]; exact hleader
      refine ⟨.replicateStart n k, _, movedBy_of_actor hleader₁ rfl hn trivial, hstep,
        ⟨?_, hrest⟩, ?_⟩
      · rw [Cluster.set_nodes_self]
        exact hkeep
      · simp only [Cluster.set_nodes_self]
        exact tasksWork_set htask (Nat.lt_succ_self 1)
  | awaiting call next payload =>
      have hstep : Raft.step M s₁ (.replicateEnd n k none) = some
          (s₁.set n { s₁.nodes n with
            tasks := (s₁.nodes n).tasks.set k ⟨owner, peer, .finished false⟩ }) := by
        simp only [step, replicateEnd, htask]
        exact if_pos fun r hr => by cases hr
      have hterm : InTerm M s₁ (.replicateEnd n k none) := fun hnone => by cases hnone
      refine ⟨.replicateEnd n k none, _, movedBy_of_actor hterm rfl hn trivial, hstep, ⟨?_, hrest⟩,
        ?_⟩
      · rw [Cluster.set_nodes_self]
        exact hkeep
      · simp only [Cluster.set_nodes_self]
        exact tasksWork_set htask Nat.zero_lt_one
  | finished result => cases hpending

/-- What a round of heartbeats does when the message to one peer is the only one that arrives. -/
structure Exchanged (n q : ν) (s s' : Cluster ν Cmd) : Prop where
  sender : (s'.nodes n).raft = (repairCall n q ((s.nodes n).raft, (s.nodes q).raft)).1.1
  receiver : (s'.nodes q).raft = (repairCall n q ((s.nodes n).raft, (s.nodes q).raft)).1.2
  heartbeat : (s'.nodes n).heartbeat = true
  others : ∀ m, m ≠ n → m ≠ q → s'.nodes m = s.nodes m

/-- **A leader can exchange a message and its answer with any peer.** -/
theorem exists_exchanged (hn : n ∈ Q) (hq : q ∈ Q) (hne : q ≠ n) (hpeer : q ∈ M.peers n)
    (hleader : (s.nodes n).raft.state = .leader) (hloop : (s.nodes n).heartbeat = true) :
    ∃ s', Reaches M Q s s' ∧ Exchanged n q s s' := by
  obtain ⟨s₁, hdrain, ⟨⟨tasks, hself⟩, hother⟩, hdone⟩ := exists_drained (M := M) hn hleader
  have hraft : (s₁.nodes n).raft = (s.nodes n).raft := by rw [hself]
  have hloop₁ : (s₁.nodes n).heartbeat = true := by rw [hself]; exact hloop
  set s₂ := s₁.set n { s₁.nodes n with
    tasks := (s₁.nodes n).tasks.filter (·.owner ≠ .heartbeat) ++
      createTasks .heartbeat (M.peers n) } with hs₂
  have hstep : Raft.step M s₁ (.heartbeat n) = some s₂ := by
    have hleader₁ : (s₁.nodes n).raft.state = .leader := by rw [hraft]; exact hleader
    simp only [step, heartbeatRound]
    rw [if_pos ⟨hloop₁, fun task htask _ => hdone task htask⟩, if_pos hleader₁]
  have hself₂ : s₂.nodes n = { s₁.nodes n with
      tasks := (s₁.nodes n).tasks.filter (·.owner ≠ .heartbeat) ++
        createTasks .heartbeat (M.peers n) } := Cluster.set_nodes_self n _
  have hraft₂ : (s₂.nodes n).raft = (s.nodes n).raft := by rw [hself₂]; exact hraft
  have hother₂ : ∀ m, m ≠ n → s₂.nodes m = s.nodes m := fun m hm =>
    (Cluster.set_nodes_of_ne hm _).trans (hother m hm)
  obtain ⟨k, htask⟩ : ∃ k : ℕ, (s₂.nodes n).tasks[k]? = some ⟨.heartbeat, q, .created⟩ := by
    refine List.getElem?_of_mem ?_
    rw [hself₂]
    exact List.mem_append_right _ (List.mem_map.2 ⟨q, hpeer, rfl⟩)
  obtain ⟨s₃, hcall, hC⟩ := exists_call (M := M) hn hq hne (by rw [hraft₂]; exact hleader) htask
  have hround : Reaches M Q s₁ s₂ :=
    .single (movedBy_of_actor (a := .heartbeat n) trivial rfl hn trivial) hstep
  refine ⟨s₃, (hdrain.trans hround).trans hcall, ⟨?_, ?_, ?_,
    fun m hmn hmq => (hC.others m hmn hmq).trans (hother₂ m hmn)⟩⟩
  · rw [hC.sender, hraft₂, hother₂ q hne]
  · rw [hC.receiver, hraft₂, hother₂ q hne]
  · rw [hC.sender, hself₂]
    exact hloop₁

/-! ### Answers -/

omit [DecidableEq ν] in
/-- `_apply_committed` comes to its end when `commit_index` is in the log and the callback
returns. -/
theorem applyCommitted_returns {node : RaftNode ν Cmd}
    (hreturns : ∀ calls command, node.applyCallback calls command = true)
    (hge : -1 ≤ node.lastApplied) (hlt : node.commitIndex < node.log.length) :
    (applyCommitted node).2 = true := by
  have hloop : ∀ (k : ℕ) (node : RaftNode ν Cmd),
      (∀ calls command, node.applyCallback calls command = true) → -1 ≤ node.lastApplied →
      node.lastApplied + k < node.log.length → (applyLoop k node).2 = true := by
    intro k
    induction k with
    | zero => exact fun _ _ _ _ => rfl
    | succ k ih =>
        intro node hreturns hge hlt
        have hlen : (node.lastApplied + 1).toNat < node.log.length := by omega
        simp only [applyLoop, List.getElem?_eq_getElem hlen, hreturns, if_true]
        refine ih _ hreturns ?_ ?_
        · simp only
          omega
        · simp only
          omega
  rcases le_or_gt node.commitIndex node.lastApplied with hle | hgt
  · rw [applyCommitted, Int.toNat_of_nonpos (by omega)]
    rfl
  · exact hloop _ node hreturns hge (by omega)

/-- **The message and its answer arrive**: no round of heartbeats in which coroutines go on in their
terms lets the handler of the peer raise. -/
theorem delivered_of_exchanged (hreturns : ∀ m calls command, callback m calls command = true)
    (h : Run (Raft.step M) (InTerm M) (initial callback) s)
    (h' : Run (Raft.step M) (InTerm M) (initial callback) s') (hE : Exchanged n q s s')
    (hterm : (s.nodes q).raft.currentTerm ≤ (s.nodes n).raft.currentTerm) :
    delivered n q ((s.nodes n).raft, (s.nodes q).raft) := by
  obtain ⟨t, -, hT⟩ := exists_history h
  obtain ⟨t', -, hT'⟩ := exists_history h'
  have hbefore := (hT.commit q).applied
  have hafter := (hT'.commit q).applied
  have hcallback := applyCallback_run h q
  rw [hE.receiver] at hafter
  set payload := replicateToPeer n (s.nodes n).raft q with hpayload
  have hstale : ¬ payload.term < (s.nodes q).raft.currentTerm := not_lt.2 hterm
  change (handleAppendEntries (s.nodes q).raft payload).2.isSome = true
  cases hprev : prevMatches (s.nodes q).raft.log payload.prevLogIndex payload.prevLogTerm with
  | false =>
      rw [handleAppendEntries_of_mismatch _ hterm hprev]
      rfl
  | true =>
      -- the entries that were stored reach to `commit_index`, as they do afterwards
      have hlt := hafter.lt
      simp only [repairCall, ← hpayload, handleAppendEntries_of_match _ hterm hprev,
        applyCommitted_commitIndex, applyCommitted_log] at hlt
      have hdone : (applyCommitted (storeEntries
          (acceptLeader (s.nodes q).raft payload.term payload.leaderId) payload)).2 = true :=
        applyCommitted_returns (fun calls command =>
          (congrFun (congrFun hcallback calls) command).trans (hreturns q calls command))
          hbefore.ge hlt
      simp only [handleAppendEntries, if_neg hstale, acceptLeader_log, hprev, if_true, hdone]
      rfl

/-! ### Repairing the logs of a majority -/

/-- A leader that the nodes of `Q` are ready to follow. -/
structure Led (M : Membership ν) (callback : ν → ApplyCallback Cmd) (Q : Finset ν) (n : ν)
    (s : Cluster ν Cmd) : Prop where
  run : Run (Raft.step M) (InTerm M) (initial callback) s
  leads : (s.nodes n).raft.state = .leader
  term : ∀ q ∈ Q, (s.nodes q).raft.currentTerm ≤ (s.nodes n).raft.currentTerm

/-- The peer has the whole log of the leader, and the leader knows it. -/
def HasLog (n q : ν) (s : Cluster ν Cmd) : Prop :=
  (s.nodes n).raft.log <+: (s.nodes q).raft.log ∧
    (s.nodes n).raft.nextIndex q = (s.nodes n).raft.log.length

/-- What a leader keeps while it repairs the logs of some peers. -/
structure Repaired (n : ν) (peers : List ν) (s s' : Cluster ν Cmd) : Prop where
  log : (s'.nodes n).raft.log = (s.nodes n).raft.log
  done : ∀ q ∈ peers, HasLog n q s'
  nextIndex : ∀ q, q ∉ peers → (s'.nodes n).raft.nextIndex q = (s.nodes n).raft.nextIndex q
  others : ∀ m, m ≠ n → m ∉ peers → s'.nodes m = s.nodes m

/-- An exchange leaves state, term and log of the leader as they are, and what it knows of the other
peers. -/
theorem repairCall_sender (leader follower : RaftNode ν Cmd) :
    (repairCall n q (leader, follower)).1.1.state = leader.state ∧
      (repairCall n q (leader, follower)).1.1.currentTerm = leader.currentTerm ∧
      (repairCall n q (leader, follower)).1.1.log = leader.log ∧
      ∀ p, p ≠ q → (repairCall n q (leader, follower)).1.1.nextIndex p = leader.nextIndex p := by
  refine ⟨replicateReply_state .., replicateReply_currentTerm .., replicateReply_log ..,
    fun p hp => ?_⟩
  simp only [repairCall]
  cases (handleAppendEntries follower (replicateToPeer n leader q)).2 with
  | none => rfl
  | some reply =>
      simp only [replicateReply]
      split
      · exact Function.update_of_ne hp _ _
      · exact Function.update_of_ne hp _ _

/-- Wherever a leader is followed, it is so after an exchange. -/
theorem Led.exchanged (hL : Led M callback Q n s) (hreach : Reaches M Q s s')
    (hE : Exchanged n q s s') (hq : q ∈ Q) : Led M callback Q n s' := by
  obtain ⟨hstate, hterm, -, -⟩ :=
    repairCall_sender (n := n) (q := q) (s.nodes n).raft (s.nodes q).raft
  refine ⟨hL.run.trans hreach.inTerm, ?_, fun m hm => ?_⟩
  · rw [hE.sender, hstate]
    exact hL.leads
  · rw [hE.sender, hterm]
    by_cases hmn : m = n
    · rw [hmn, hE.sender, hterm]
    · by_cases hmq : m = q
      · rw [hmq, hE.receiver]
        exact (handleAppendEntries_currentTerm _ _).le.trans (max_le (hL.term q hq) le_rfl)
      · rw [hE.others m hmn hmq]
        exact hL.term m hm

/-- Logs match, and their terms are positive, wherever the cluster has a history. -/
theorem matching_run (h : Run (Raft.step M) (InTerm M) (initial callback) s) (p q : ν) :
    Matching LogEntry.term (s.nodes p).raft.log (s.nodes q).raft.log ∧
      ∀ e ∈ (s.nodes p).raft.log, 0 < e.term := by
  obtain ⟨t, hI, hT⟩ := exists_history h
  rw [(hT.vote p).log, (hT.vote q).log]
  exact ⟨(hI.log_grounded p).matches (hI.log_grounded q), fun e he => hI.pos_of_mem_log he⟩

/-- **A leader can bring its log to a peer**: its messages arrive one by one until one of them is
accepted. -/
theorem exists_repaired_one (hreturns : ∀ m calls command, callback m calls command = true)
    (hL : Led M callback Q n s) (hn : n ∈ Q) (hq : q ∈ Q) (hne : q ≠ n) (hpeer : q ∈ M.peers n) :
    ∃ s', Reaches M Q s s' ∧ Led M callback Q n s' ∧ Repaired n [q] s s' := by
  induction hnext : (s.nodes n).raft.nextIndex q using Nat.strongRecOn generalizing s with
  | _ next ih =>
      obtain ⟨s₁, hreach, hE⟩ :=
        exists_exchanged hn hq hne hpeer hL.leads (heartbeat_run hL.run n hL.leads)
      have hL₁ := hL.exchanged hreach hE hq
      obtain ⟨-, -, hlog, hothers⟩ :=
        repairCall_sender (n := n) (q := q) (s.nodes n).raft (s.nodes q).raft
      cases hprev : prevMatches (s.nodes q).raft.log
          (replicateToPeer n (s.nodes n).raft q).prevLogIndex
          (replicateToPeer n (s.nodes n).raft q).prevLogTerm with
      | true =>
          obtain ⟨hmatch, hpos⟩ := matching_run hL.run q n
          have hdelivered := delivered_of_exchanged hreturns hL.run hL₁.run hE (hL.term q hq)
          obtain ⟨-, hend, -, htake⟩ :=
            repairCall_accepted (hL.term q hq) hpos hmatch hdelivered hprev
          refine ⟨s₁, hreach, hL₁, ⟨?_, fun p hp => ?_, fun p hp => ?_, fun m hmn hm => ?_⟩⟩
          · rw [hE.sender, hlog]
          · rw [List.mem_singleton.1 hp, HasLog, hE.sender, hE.receiver, hlog]
            exact ⟨htake ▸ List.take_prefix _ _, hend⟩
          · rw [hE.sender, hothers p fun heq => hp (List.mem_singleton.2 heq)]
          · exact hE.others m hmn fun heq => hm (List.mem_singleton.2 heq)
      | false =>
          -- the follower has refused, so `next_index` is not 0, and goes down
          have hcall := repairCall_refused (hL.term q hq) hprev
          have hnext₁ : (s₁.nodes n).raft.nextIndex q = next - 1 := by
            rw [hE.sender, hcall, ← hnext]
            exact Function.update_self _ _ _
          have hless : next - 1 < next := by
            rcases Nat.eq_zero_or_pos next with hzero | hpos
            · rw [hzero] at hnext
              simp [replicateToPeer, hnext, prevMatches] at hprev
            · omega
          obtain ⟨s', hrest, hL', hR⟩ := ih (next - 1) hless hL₁ hnext₁
          refine ⟨s', hreach.trans hrest, hL', ⟨?_, hR.done, fun p hp => ?_, fun m hmn hm => ?_⟩⟩
          · rw [hR.log, hE.sender, hlog]
          · rw [hR.nextIndex p hp, hE.sender, hothers p fun heq => hp (List.mem_singleton.2 heq)]
          · rw [hR.others m hmn hm]
            exact hE.others m hmn fun heq => hm (List.mem_singleton.2 heq)

/-- **A leader can bring its log to every node of a majority**, one after the other. -/
theorem exists_repaired (hreturns : ∀ m calls command, callback m calls command = true)
    (hL : Led M callback Q n s) (hn : n ∈ Q) {peers : List ν} (hnodup : peers.Nodup)
    (hpeers : ∀ q ∈ peers, q ∈ Q ∧ q ≠ n ∧ q ∈ M.peers n) :
    ∃ s', Reaches M Q s s' ∧ Led M callback Q n s' ∧ Repaired n peers s s' := by
  induction peers generalizing s with
  | nil =>
      exact ⟨s, .refl s, hL, ⟨rfl, fun _ hq => absurd hq List.not_mem_nil, fun _ _ => rfl,
        fun _ _ _ => rfl⟩⟩
  | cons q peers ih =>
      obtain ⟨hq, hnodup⟩ := List.nodup_cons.1 hnodup
      obtain ⟨hqQ, hne, hpeer⟩ := hpeers q List.mem_cons_self
      obtain ⟨s₁, hfirst, hL₁, hR₁⟩ := exists_repaired_one hreturns hL hn hqQ hne hpeer
      obtain ⟨s', hrest, hL', hR⟩ := ih hL₁ hnodup fun p hp => hpeers p (List.mem_cons_of_mem q hp)
      refine ⟨s', hfirst.trans hrest, hL', ⟨hR.log.trans hR₁.log, ?_, fun p hp => ?_,
        fun m hmn hm => ?_⟩⟩
      · refine List.forall_mem_cons.2 ⟨?_, hR.done⟩
        -- the peer keeps what it has got, and the leader what it knows of it
        obtain ⟨hlog, hend⟩ := hR₁.done q (List.mem_singleton_self q)
        rw [HasLog, hR.log, hR.others q hne hq, hR.nextIndex q hq]
        exact ⟨hlog, hend⟩
      · rw [hR.nextIndex p fun hmem => hp (List.mem_cons_of_mem q hmem)]
        exact hR₁.nextIndex p fun hmem => hp (List.mem_singleton.1 hmem ▸ List.mem_cons_self)
      · rw [hR.others m hmn fun hmem => hm (List.mem_cons_of_mem q hmem)]
        exact hR₁.others m hmn fun hmem => hm (List.mem_singleton.1 hmem ▸ List.mem_cons_self)

/-! ### Copying a new entry -/

/-- The peer has the entry in front of what the leader would send it next. -/
def Ready (n q : ν) (s : Cluster ν Cmd) : Prop :=
  prevMatches (s.nodes q).raft.log (replicateToPeer n (s.nodes n).raft q).prevLogIndex
    (replicateToPeer n (s.nodes n).raft q).prevLogTerm = true

/-- What a leader keeps while some peers answer the tasks of one call of `append_entry`. -/
structure Answered (n : ν) (id : ℕ) (peers : List ν) (s s' : Cluster ν Cmd) : Prop where
  log : (s'.nodes n).raft.log = (s.nodes n).raft.log
  term : (s'.nodes n).raft.currentTerm = (s.nodes n).raft.currentTerm
  appends : (s'.nodes n).appends = (s.nodes n).appends
  done : ∀ q ∈ peers, ⟨.append id, q, .finished true⟩ ∈ (s'.nodes n).tasks
  kept : ∀ task ∈ (s.nodes n).tasks, task.peer ∉ peers → task ∈ (s'.nodes n).tasks
  nextIndex : ∀ q, q ∉ peers → (s'.nodes n).raft.nextIndex q = (s.nodes n).raft.nextIndex q
  others : ∀ m, m ≠ n → m ∉ peers → s'.nodes m = s.nodes m

omit [DecidableEq ν] in
/-- Whether a peer is ready depends on the two logs and on `next_index`. -/
theorem Ready.of_eq (h : Ready n q s) (hlog : (s'.nodes n).raft.log = (s.nodes n).raft.log)
    (hnext : (s'.nodes n).raft.nextIndex q = (s.nodes n).raft.nextIndex q)
    (hpeer : (s'.nodes q).raft.log = (s.nodes q).raft.log) : Ready n q s' := by
  rw [Ready] at h ⊢
  simp only [replicateToPeer, hlog, hnext, hpeer] at h ⊢
  exact h

omit [DecidableEq ν] in
/-- A peer that has the leader's log takes the entry that comes behind it. -/
theorem HasLog.ready (h : HasLog n q s) {entries : List (LogEntry Cmd)}
    (hlog : (s'.nodes n).raft.log = (s.nodes n).raft.log ++ entries)
    (hnext : (s'.nodes n).raft.nextIndex q = (s.nodes n).raft.nextIndex q)
    (hpeer : (s'.nodes q).raft.log = (s.nodes q).raft.log) : Ready n q s' := by
  obtain ⟨hpre, hend⟩ := h
  rw [Ready, hpeer]
  simp only [replicateToPeer, hnext, hend, hlog]
  generalize (s.nodes n).raft.log = L at hpre
  unfold prevMatches
  split
  · next hge =>
      have hlen : 0 < L.length := by omega
      obtain ⟨i, hi⟩ : ∃ i : ℕ, ((L.length : ℤ) - 1) = i := ⟨L.length - 1, by omega⟩
      have hlt : i < L.length := by omega
      have hget : L[i]? = some L[i] := List.getElem?_eq_getElem hlt
      simp only [hi, Int.toNat_natCast, getElem?_of_isPrefix hpre hget,
        getElem?_of_isPrefix (List.prefix_append L entries) hget, decide_true]
  · rfl

/-- **A task of `append_entry` is answered by a peer that is ready.** -/
theorem exists_answered_one (hreturns : ∀ m calls command, callback m calls command = true)
    (hL : Led M callback Q n s) (hn : n ∈ Q) {id : ℕ} (hq : q ∈ Q) (hne : q ≠ n)
    (hready : Ready n q s) (htask : ⟨.append id, q, .created⟩ ∈ (s.nodes n).tasks) :
    ∃ s', Reaches M Q s s' ∧ Led M callback Q n s' ∧ Answered n id [q] s s' := by
  obtain ⟨k, hk⟩ := List.getElem?_of_mem htask
  obtain ⟨s', hreach, hC⟩ := exists_call (M := M) hn hq hne hL.leads hk
  have hE : Exchanged n q s s' := by
    refine ⟨?_, ?_, ?_, hC.others⟩
    · rw [hC.sender]
    · rw [hC.receiver]
    · rw [hC.sender]
      exact heartbeat_run hL.run n hL.leads
  have hL' := hL.exchanged hreach hE hq
  obtain ⟨hmatch, hpos⟩ := matching_run hL.run q n
  have hdelivered := delivered_of_exchanged hreturns hL.run hL'.run hE (hL.term q hq)
  obtain ⟨hreturn, -⟩ := repairCall_accepted (hL.term q hq) hpos hmatch hdelivered hready
  obtain ⟨-, hterm, hlog, hothers⟩ :=
    repairCall_sender (n := n) (q := q) (s.nodes n).raft (s.nodes q).raft
  have htasks : (s'.nodes n).tasks =
      (s.nodes n).tasks.set k ⟨.append id, q, .finished true⟩ := by
    rw [hC.sender, hreturn]
  refine ⟨s', hreach, hL', ⟨?_, ?_, ?_, fun p hp => ?_, fun task hmem hpeer => ?_, fun p hp => ?_,
    fun m hmn hm => hC.others m hmn fun heq => hm (List.mem_singleton.2 heq)⟩⟩
  · rw [hE.sender, hlog]
  · rw [hE.sender, hterm]
  · rw [hC.sender]
  · rw [List.mem_singleton.1 hp, htasks]
    exact List.mem_of_getElem? (List.getElem?_set_self (List.getElem?_eq_some_iff.1 hk).1)
  · obtain ⟨j, hj⟩ := List.getElem?_of_mem hmem
    have hjk : k ≠ j := by
      rintro rfl
      obtain rfl := Option.some.inj (hj.symm.trans hk)
      exact hpeer (List.mem_singleton_self q)
    rw [htasks]
    exact List.mem_of_getElem? ((List.getElem?_set_ne hjk).trans hj)
  · rw [hE.sender, hothers p fun heq => hp (List.mem_singleton.2 heq)]

/-- **So all of them can be answered**, one after the other. -/
theorem exists_answered (hreturns : ∀ m calls command, callback m calls command = true)
    (hL : Led M callback Q n s) (hn : n ∈ Q) {id : ℕ} {peers : List ν} (hnodup : peers.Nodup)
    (hpeers : ∀ q ∈ peers, q ∈ Q ∧ q ≠ n ∧ Ready n q s ∧
      ⟨.append id, q, .created⟩ ∈ (s.nodes n).tasks) :
    ∃ s', Reaches M Q s s' ∧ Led M callback Q n s' ∧ Answered n id peers s s' := by
  induction peers generalizing s with
  | nil =>
      exact ⟨s, .refl s, hL, ⟨rfl, rfl, rfl, fun _ hq => absurd hq List.not_mem_nil,
        fun _ hmem _ => hmem, fun _ _ => rfl, fun _ _ _ => rfl⟩⟩
  | cons q peers ih =>
      obtain ⟨hq, hnodup⟩ := List.nodup_cons.1 hnodup
      obtain ⟨hqQ, hne, hready, htask⟩ := hpeers q List.mem_cons_self
      obtain ⟨s₁, hfirst, hL₁, hA₁⟩ := exists_answered_one hreturns hL hn hqQ hne hready htask
      have hother : ∀ p ∈ peers, p ∉ [q] := fun p hp hmem => hq (List.mem_singleton.1 hmem ▸ hp)
      obtain ⟨s', hrest, hL', hA⟩ := ih hL₁ hnodup fun p hp => by
        obtain ⟨hpQ, hpn, hready, htask⟩ := hpeers p (List.mem_cons_of_mem q hp)
        exact ⟨hpQ, hpn, hready.of_eq hA₁.log (hA₁.nextIndex p (hother p hp))
          (congrArg (·.raft.log) (hA₁.others p hpn (hother p hp))),
          hA₁.kept _ htask (hother p hp)⟩
      have hsplit : ∀ {p : ν}, p ∉ q :: peers → p ∉ [q] ∧ p ∉ peers := fun hp =>
        ⟨fun hmem => hp (List.mem_singleton.1 hmem ▸ List.mem_cons_self),
          fun hmem => hp (List.mem_cons_of_mem q hmem)⟩
      refine ⟨s', hfirst.trans hrest, hL', ⟨hA.log.trans hA₁.log, hA.term.trans hA₁.term,
        hA.appends.trans hA₁.appends, ?_, fun task hmem hp => ?_, fun p hp => ?_,
        fun m hmn hm => ?_⟩⟩
      · exact List.forall_mem_cons.2
          ⟨hA.kept _ (hA₁.done q (List.mem_singleton_self q)) hq, hA.done⟩
      · exact hA.kept _ (hA₁.kept task hmem (hsplit hp).1) (hsplit hp).2
      · rw [hA.nextIndex p (hsplit hp).2, hA₁.nextIndex p (hsplit hp).1]
      · rw [hA.others m hmn (hsplit hm).2, hA₁.others m hmn (hsplit hm).1]

/-! ### The end of a call of `append_entry` -/

/-- The lists of tasks are in order in every run. -/
theorem taskListInv_run {ok : Cluster ν Cmd → Action ν Cmd → Prop}
    (h : Run (Raft.step M) ok (initial callback) s) (m : ν) : TaskListInv M m (s.nodes m) := by
  have hall := h.invariant
    (I := fun s => ElectionInv M s ∧ FrameInv M s ∧ ∀ m, TaskListInv M m (s.nodes m))
    (fun _ _ _ hI _ hstep =>
      have hmoves := moves_of_step hstep
      ⟨hI.1.step hmoves, hI.2.1.step hI.1 hmoves, TaskListInv.step hI.2.2 hI.2.1 hmoves⟩)
    ⟨electionInv_initial, frameInv_initial, taskListInv_initial⟩
  exact hall.2.2 m

omit [DecidableEq ν] in
/-- Peers whose tasks have returned `True` count among the successes. -/
theorem exists_successes {p : Process ν Cmd} {id : ℕ} {peers : List ν} (hnodup : peers.Nodup)
    (hdone : ∀ q ∈ peers, ⟨.append id, q, .finished true⟩ ∈ p.tasks) :
    ∃ k, replicateLog (p.outcomes id) = some k ∧ 1 + peers.length ≤ k := by
  have hplain : ∀ o ∈ p.outcomes id, o.plain := by
    intro o ho
    obtain ⟨task, -, rfl⟩ := List.mem_map.1 ho
    exact plain_outcome task
  have hraised : .raised ∉ p.outcomes id := fun hmem => by
    rcases hplain _ hmem with ⟨b, hb⟩ | hb <;> cases hb
  obtain ⟨k, hk⟩ : ∃ k, replicateLog (p.outcomes id) = some k := by
    obtain ⟨results, hresults⟩ := timeoutResults_isSome.2 hraised
    rw [replicateLog]
    cases gatherResults (p.outcomes id) with
    | some results' => exact ⟨_, rfl⟩
    | none => exact ⟨_, congrArg _ hresults⟩
  refine ⟨k, hk, ?_⟩
  set counted := (p.tasks.filter (·.owner = .append id)).filter (·.outcome = .returned true)
    with hcounted
  have hcount : (p.outcomes id).countP (· = .returned true) = counted.length := by
    rw [Process.outcomes, List.countP_map, List.countP_eq_length_filter, hcounted]
    rfl
  have hsub : peers ⊆ counted.map (·.peer) := fun q hq =>
    List.mem_map.2 ⟨_, List.mem_filter.2 ⟨List.mem_filter.2 ⟨hdone q hq, decide_eq_true rfl⟩,
      decide_eq_true rfl⟩, rfl⟩
  have hlen := (hnodup.subperm hsub).length_le
  rw [List.length_map, ← hcount] at hlen
  rw [successes_eq hplain hk]
  omega

omit [DecidableEq ν] in
/-- `_apply_committed`, when it comes to its end, has applied what is committed. -/
theorem lastApplied_of_returns {node : RaftNode ν Cmd} (h : (applyCommitted node).2 = true) :
    (applyCommitted node).1.lastApplied = max node.lastApplied node.commitIndex := by
  have hloop : ∀ (k : ℕ) (node : RaftNode ν Cmd), (applyLoop k node).2 = true →
      (applyLoop k node).1.lastApplied = node.lastApplied + k := by
    intro k
    induction k with
    | zero => exact fun node _ => (Int.add_zero _).symm
    | succ k ih =>
        intro node hreturn
        simp only [applyLoop] at hreturn ⊢
        split at hreturn
        · cases hreturn
        · next entry hentry =>
            split at hreturn
            · next hcallback =>
                rw [if_pos hcallback, ih _ hreturn]
                simp only
                omega
            · cases hreturn
  rw [applyCommitted, hloop _ node h]
  omega

omit [DecidableEq ν] in
/-- **`append_entry` returns `True`** when enough tasks have succeeded and nothing raises. -/
theorem concludeAppend_returns {node : RaftNode ν Cmd} {peers : List ν} {i k : ℕ} {m : ℤ}
    (hreturns : ∀ calls command, node.applyCallback calls command = true)
    (hge : -1 ≤ node.lastApplied) (hmajority : majority peers ≤ k)
    (hadvance : advanceCommitIndex peers node = applyCommitted { node with commitIndex := m })
    (hm : m < node.log.length) (hi : i < node.log.length) :
    (concludeAppend peers node i (some k)).2 = true ∧
      (i : ℤ) ≤ (concludeAppend peers node i (some k)).1.lastApplied := by
  have hfirst := @applyCommitted_returns ν Cmd { node with commitIndex := m } hreturns hge hm
  have hlast := lastApplied_of_returns hfirst
  have hcallback := applyCommitted_frame { node with commitIndex := m } (·.applyCallback)
    fun _ _ _ => rfl
  have hlog := applyCommitted_log { node with commitIndex := m }
  have hcommit := applyCommitted_commitIndex { node with commitIndex := m }
  have hpair : applyCommitted { node with commitIndex := m } =
      ((applyCommitted { node with commitIndex := m }).1, true) := Prod.ext rfl hfirst
  simp only [concludeAppend, if_pos hmajority, hadvance]
  rw [hpair]
  generalize (applyCommitted { node with commitIndex := m }).1 = node₁ at *
  simp only at hcallback hlog hcommit hlast ⊢
  -- the entry is in the log, so its index may become `commit_index`
  have hsecond : (commitEntry node₁ i).2 = true := by
    refine applyCommitted_returns (fun calls command => ?_) ?_ ?_
    · rw [hcallback]
      exact hreturns calls command
    · simp only
      omega
    · simp only [hlog]
      split <;> omega
  refine ⟨hsecond, ?_⟩
  rw [commitEntry, lastApplied_of_returns hsecond]
  simp only
  split <;> omega

omit [DecidableEq ν] in
/-- What is not beyond `last_applied` has been passed to the callback. -/
theorem AppliedInv.mem_applied {node : RaftNode ν Cmd} (h : AppliedInv node) {i : ℕ}
    {entry : LogEntry Cmd} (hi : (i : ℤ) ≤ node.lastApplied) (hentry : node.log[i]? = some entry) :
    ((i : ℤ), entry.command) ∈ node.applied := by
  have hget : (node.log.take (node.lastApplied + 1).toNat)[i]? = some entry := by
    rwa [List.getElem?_take_of_lt (by omega)]
  obtain ⟨hlen, heq⟩ := List.getElem?_eq_some_iff.1 hget
  rw [h.applied, enumerate]
  exact List.mem_mapIdx.2 ⟨i, hlen, by rw [heq]⟩

/-- Acknowledgements are only added. -/
theorem acknowledged_isPrefix {ok : Cluster ν Cmd → Action ν Cmd → Prop}
    (h : Run (Raft.step M) ok s s') : s.acknowledged <+: s'.acknowledged := by
  refine h.preorder (R := fun s s' => s.acknowledged <+: s'.acknowledged)
    (fun _ => List.prefix_refl _) (fun _ _ _ => List.IsPrefix.trans) fun _ _ _ hstep => ?_
  cases moves_of_step hstep
  case appendEnd => exact List.prefix_append _ _
  all_goals exact List.prefix_refl _

/-- The last thing that was acknowledged is a command, which the leader has appended in its term,
and has applied. -/
structure Commits (n : ν) (command : Cmd) (s s' : Cluster ν Cmd) : Prop where
  leads : (s'.nodes n).raft.state = .leader
  acknowledged : ∃ (acknowledged : List (ν × LogEntry Cmd × ℕ)) (i : ℕ),
    s.acknowledged <+: acknowledged ∧
    s'.acknowledged = acknowledged ++ [(n, ⟨(s'.nodes n).raft.currentTerm, command⟩, i)] ∧
    (s'.nodes n).raft.log[i]? = some ⟨(s'.nodes n).raft.currentTerm, command⟩ ∧
    ((i : ℤ), command) ∈ (s'.nodes n).raft.applied

/-- **A call of `append_entry` whose tasks a majority has answered** ends with `True`. -/
theorem exists_acknowledged (hreturns : ∀ m calls command, callback m calls command = true)
    (hQ : M.IsMajority Q) (hL : Led M callback Q n s) (hn : n ∈ Q) {id : ℕ}
    {frame : AppendFrame Cmd} (hframe : (s.nodes n).appends.find? (·.id = id) = some frame)
    (hentry : (s.nodes n).raft.log[frame.entryIndex]? = some frame.entry)
    (hterm : (s.nodes n).raft.currentTerm = frame.entry.term)
    (hdone : ∀ q ∈ (M.peers n).filter (· ∈ Q),
      ⟨.append id, q, .finished true⟩ ∈ (s.nodes n).tasks) :
    ∃ s', Reaches M Q s s' ∧ Commits n frame.entry.command s s' := by
  obtain ⟨t, hI, hT⟩ := exists_history hL.run
  have happlied := (hT.commit n).applied
  have hcallback := applyCallback_run hL.run n
  obtain ⟨k, hk, hcount⟩ := exists_successes ((nodup_peers (hQ.1 n hn)).filter _) hdone
  have hmajority := (majority_le_of_isMajority hQ hn).trans hcount
  have hok : InTerm M s (.appendEnd n id) := by
    intro k' _ _ frame' hframe'
    rw [hframe] at hframe'
    exact Option.some.inj hframe' ▸ hterm
  obtain ⟨m, -, hm, hadvance⟩ := hT.advancesInLog hI n id frame k hframe hk hmajority hok
  obtain ⟨hreturn, hlast⟩ := concludeAppend_returns (i := frame.entryIndex)
    (fun calls command => (congrFun (congrFun hcallback calls) command).trans
      (hreturns n calls command)) happlied.ge hmajority hadvance hm
      (List.getElem?_eq_some_iff.1 hentry).1
  rw [← hk] at hreturn hlast
  set done := concludeAppend (M.peers n) (s.nodes n).raft frame.entryIndex
    (replicateLog ((s.nodes n).outcomes id)) with hconclude
  set s' : Cluster ν Cmd := { s.set n { s.nodes n with
      raft := done.1
      tasks := (s.nodes n).tasks.filter (·.owner ≠ .append id)
      appends := (s.nodes n).appends.filter (·.id ≠ id) } with
    acknowledged := s.acknowledged ++
      if done.2 = true then [(n, frame.entry, frame.entryIndex)] else [] } with hs'
  have hstep : Raft.step M s (.appendEnd n id) = some s' := by
    simp only [step, appendEnd, hframe]
    rfl
  have hrun : Reaches M Q s s' := .single (movedBy_of_actor hok rfl hn trivial) hstep
  have hself : (s'.nodes n).raft = done.1 := by
    rw [hs']
    exact congrArg Process.raft (Cluster.set_nodes_self n _)
  have hterm' : (s'.nodes n).raft.currentTerm = frame.entry.term := by
    rw [hself, hconclude, concludeAppend_currentTerm, hterm]
  have hentry' : (s'.nodes n).raft.log[frame.entryIndex]? = some frame.entry := by
    rw [hself, hconclude, concludeAppend_log, hentry]
  obtain ⟨t', -, hT'⟩ := exists_history (hL.run.trans hrun.inTerm)
  have hsame : (⟨(s'.nodes n).raft.currentTerm, frame.entry.command⟩ : LogEntry Cmd) =
      frame.entry := by rw [hterm']
  refine ⟨s', hrun, ⟨?_, s.acknowledged, frame.entryIndex, List.prefix_refl _, ?_, ?_, ?_⟩⟩
  · rw [hself, hconclude, concludeAppend_state]
    exact hL.leads
  · rw [hsame, hs']
    simp only [hreturn, if_true]
  · rw [hsame, hentry']
  · exact (hT'.commit n).applied.mem_applied (hself ▸ hlast) hentry'

/-- **A leader that a majority is ready to follow can have any command acknowledged**: it repairs
the logs of the majority, appends the command, and gets the answers it needs. -/
theorem exists_committed (hreturns : ∀ m calls command, callback m calls command = true)
    (hQ : M.IsMajority Q) (hL : Led M callback Q n s) (hn : n ∈ Q) (command : Cmd) :
    ∃ s', Reaches M Q s s' ∧ Commits n command s s' := by
  have hnodes := hQ.1 n hn
  set voters := (M.peers n).filter (· ∈ Q) with hvoters
  have hmem : ∀ q ∈ voters, q ∈ Q ∧ q ≠ n ∧ q ∈ M.peers n := fun q hq =>
    have h := List.mem_filter.1 hq
    ⟨of_decide_eq_true h.2, ((M.mem_peers hnodes).1 h.1).2, h.1⟩
  have hnodup : voters.Nodup := (nodup_peers hnodes).filter _
  obtain ⟨s₁, hrepair, hL₁, hR⟩ := exists_repaired hreturns hL hn hnodup hmem
  -- the new entry goes behind the log that all of them have
  set id := (s₁.nodes n).nextId with hid
  set entry : LogEntry Cmd := ⟨(s₁.nodes n).raft.currentTerm, command⟩ with hentry
  set frame : AppendFrame Cmd := ⟨id, entry, (s₁.nodes n).raft.log.length⟩ with hframe
  set s₂ := s₁.set n { s₁.nodes n with
    raft := { (s₁.nodes n).raft with log := (s₁.nodes n).raft.log ++ [entry] }
    tasks := (s₁.nodes n).tasks ++ createTasks (.append id) (M.peers n)
    appends := (s₁.nodes n).appends ++ [frame]
    nextId := id + 1 } with hs₂
  have hstep : Raft.step M s₁ (.appendEntry n command) = some s₂ := by
    simp only [step, appendCommand]
    exact if_pos hL₁.leads
  have happend : Reaches M Q s₁ s₂ :=
    .single (movedBy_of_actor (a := .appendEntry n command) trivial rfl hn trivial) hstep
  have hself : s₂.nodes n = { s₁.nodes n with
      raft := { (s₁.nodes n).raft with log := (s₁.nodes n).raft.log ++ [entry] }
      tasks := (s₁.nodes n).tasks ++ createTasks (.append id) (M.peers n)
      appends := (s₁.nodes n).appends ++ [frame]
      nextId := id + 1 } := Cluster.set_nodes_self n _
  have hother : ∀ m, m ≠ n → s₂.nodes m = s₁.nodes m := fun m hm => Cluster.set_nodes_of_ne hm _
  have hL₂ : Led M callback Q n s₂ := by
    refine ⟨hL₁.run.trans happend.inTerm, ?_, fun q hq => ?_⟩
    · rw [hself]
      exact hL₁.leads
    · have hterm : (s₂.nodes n).raft.currentTerm = (s₁.nodes n).raft.currentTerm := by rw [hself]
      rw [hterm]
      by_cases hqn : q = n
      · rw [hqn, hterm]
      · rw [hother q hqn]
        exact hL₁.term q hq
  have hlog : (s₂.nodes n).raft.log = (s₁.nodes n).raft.log ++ [entry] := by rw [hself]
  have hready : ∀ q ∈ voters, q ∈ Q ∧ q ≠ n ∧ Ready n q s₂ ∧
      ⟨.append id, q, .created⟩ ∈ (s₂.nodes n).tasks := by
    intro q hq
    obtain ⟨hqQ, hqn, hpeer⟩ := hmem q hq
    refine ⟨hqQ, hqn, (hR.done q hq).ready hlog (by rw [hself]) (by rw [hother q hqn]), ?_⟩
    rw [hself]
    exact List.mem_append_right _ (List.mem_map.2 ⟨q, hpeer, rfl⟩)
  obtain ⟨s₃, hanswer, hL₃, hA⟩ := exists_answered hreturns hL₂ hn hnodup hready
  have hfind : (s₃.nodes n).appends.find? (·.id = id) = some frame := by
    have hnew : (s₁.nodes n).appends.find? (·.id = id) = none :=
      List.find?_eq_none.2 fun f hf heq =>
        absurd (of_decide_eq_true heq) ((taskListInv_run hL₁.run n).frame_lt f hf).ne
    rw [hA.appends, hself, List.find?_append, hnew]
    simp [hframe]
  obtain ⟨s₄, hend, hC⟩ := exists_acknowledged hreturns hQ hL₃ hn hfind
    (by rw [hA.log, hself]; simp [hframe]) (by rw [hA.term, hself]) hA.done
  obtain ⟨acknowledged, i, hpre, hlast⟩ := hC.acknowledged
  have hrun := (hrepair.trans happend).trans hanswer
  exact ⟨s₄, hrun.trans hend,
    ⟨hC.leads, acknowledged, i, (acknowledged_isPrefix hrun).trans hpre, hlast⟩⟩

/-! ### Leaders in the way -/

/-- **Of two leaders, one can be deposed by a heartbeat** of the other. -/
theorem exists_follower (h : Run (Raft.step M) (InTerm M) (initial callback) s)
    (hQ : M.IsMajority Q) (hcard : 1 < Q.card) :
    ∃ s', Reaches M Q s s' ∧ ∃ q ∈ Q, (s'.nodes q).raft.state ≠ .leader := by
  by_cases hall : ∀ q ∈ Q, (s.nodes q).raft.state = .leader
  · have hne : Q.Nonempty := Finset.card_pos.1 (by omega)
    obtain ⟨m, hm, hmax⟩ := Q.exists_max_image (fun q => (s.nodes q).raft.currentTerm) hne
    obtain ⟨q, hq, hqm⟩ := Finset.exists_mem_ne hcard m
    have hpeer : q ∈ M.peers m := (M.mem_peers (hQ.1 m hm)).2 ⟨hQ.1 q hq, hqm⟩
    obtain ⟨s', hreach, hE⟩ :=
      exists_exchanged hm hq hqm hpeer (hall m hm) (heartbeat_run h m (hall m hm))
    refine ⟨s', hreach, q, hq, ?_⟩
    have hstate : (repairCall m q ((s.nodes m).raft, (s.nodes q).raft)).1.2.state = .follower :=
      handleAppendEntries_state _ (hmax q hq)
    rw [hE.receiver, hstate]
    exact fun heq => by cases heq
  · push Not at hall
    exact ⟨s, .refl s, hall⟩

/-- **A leader can be deposed by the vote request of a node that does not lead**, which leaves all
logs as they are. -/
theorem exists_deposed (hQ : M.IsMajority Q) (hn : n ∈ Q) (hq : q ∈ Q) (hne : n ≠ q)
    (hstate : (s.nodes q).raft.state ≠ .leader) :
    ∃ s', Reaches M Q s s' ∧ (s'.nodes n).raft.state ≠ .leader ∧
      ∀ m, (s'.nodes m).raft.log = (s.nodes m).raft.log := by
  have hqn := hQ.1 q hq
  have hpeer : n ∈ M.peers q := (M.mem_peers hqn).2 ⟨hQ.1 n hn, hne⟩
  obtain ⟨s₁, hcampaign, hC, hidle, habove⟩ := exists_campaign hqn hq (List.ne_nil_of_mem hpeer)
    hstate (s.nodes n).raft.currentTerm
  have hstep := step_electionTimeout hqn hC.state hidle
  set payload := (startElection q (s₁.nodes q).raft).2 with hpayload
  set s₂ : Cluster ν Cmd := { s₁.set q { s₁.nodes q with
      raft := (startElection q (s₁.nodes q).raft).1
      election := some payload } with
    voteCalls := s₁.voteCalls ++ [payload] } with hs₂
  have hother : ∀ m, m ≠ q → s₂.nodes m = s.nodes m := fun m hm =>
    (Cluster.set_nodes_of_ne hm _).trans (hC.others m hm)
  have hcandidate : s₂.nodes q = { s₁.nodes q with
      raft := (startElection q (s₁.nodes q).raft).1
      election := some payload } := Cluster.set_nodes_self q _
  have hself : (s₂.nodes q).raft.log = (s.nodes q).raft.log := by
    rw [hcandidate]
    exact hC.log
  have hcall : s₂.voteCalls[s₁.voteCalls.length]? = some payload := by simp [hs₂]
  set s₃ : Cluster ν Cmd := { s₂.set n { s₂.nodes n with
      raft := (handleRequestVote (s₂.nodes n).raft payload).1 } with
    voteReplies := s₂.voteReplies ++
      [⟨payload, n, (handleRequestVote (s₂.nodes n).raft payload).2⟩] } with hs₃
  have hvote : Raft.step M s₂ (.requestVote s₁.voteCalls.length n) = some s₃ := by
    simp only [step, requestVote, hcall]
    exact if_pos hpeer
  have hdeposed : s₃.nodes n = { s₂.nodes n with
      raft := (handleRequestVote (s₂.nodes n).raft payload).1 } := Cluster.set_nodes_self n _
  have hfresh : Fresh Q s₁ s₂ (.requestVote s₁.voteCalls.length n) := by
    refine ⟨le_rfl, fun payload' hpayload' => ?_⟩
    rw [hcall] at hpayload'
    exact Option.some.inj hpayload' ▸ hq
  have hdepose : Reaches M Q s₁ s₃ :=
    (Run.single (movedBy_of_actor (a := .electionTimeout q) trivial rfl hq trivial) hstep).tail
      (movedBy_of_actor (a := .requestVote s₁.voteCalls.length n) trivial rfl hn hfresh) hvote
  refine ⟨s₃, hcampaign.trans hdepose, ?_, fun m => ?_⟩
  · have hnew : (s₂.nodes n).raft.currentTerm < payload.term := by
      rw [hother n hne]
      exact Nat.lt_succ_of_le habove
    rw [hdeposed]
    simp only [handleRequestVote_state, if_pos hnew]
    exact fun heq => by cases heq
  · by_cases hmn : m = n
    · rw [hmn, hdeposed]
      simp only [handleRequestVote_log, hother n hne]
    · have hkeep : s₃.nodes m = s₂.nodes m := Cluster.set_nodes_of_ne hmn _
      rw [hkeep]
      by_cases hmq : m = q
      · rw [hmq, hself]
      · rw [hother m hmq]

/-- **A majority can always give itself a leader.** -/
theorem exists_led (h : Run (Raft.step M) (InTerm M) (initial callback) s) (hQ : M.IsMajority Q) :
    ∃ s', Reaches M Q s s' ∧ ∃ n ∈ Q, Led M callback Q n s' := by
  have elect : ∀ {s₁ : Cluster ν Cmd} {n : ν}, Reaches M Q s s₁ → n ∈ Q →
      (s₁.nodes n).raft.state ≠ .leader →
      (∀ q ∈ Q, rank (s₁.nodes q).raft.log ≤ rank (s₁.nodes n).raft.log) →
      ∃ s', Reaches M Q s s' ∧ ∃ n ∈ Q, Led M callback Q n s' := by
    intro s₁ n hreach hn hstate hbest
    obtain ⟨s', hrun, hE⟩ := exists_elected (h.trans hreach.inTerm) hQ hn hstate hbest
    have hrun' : Reaches M Q s s' := hreach.trans hrun
    exact ⟨s', hrun', n, hn, ⟨h.trans hrun'.inTerm, hE.leads, fun q hq => (hE.term q hq).le⟩⟩
  rcases lt_or_ge 1 Q.card with hcard | hcard
  · obtain ⟨s₁, hreach, q, hq, hstate⟩ := exists_follower h hQ hcard
    obtain ⟨n, hn, hbest⟩ := exists_best s₁ hQ
    by_cases hleads : (s₁.nodes n).raft.state = .leader
    · have hne : n ≠ q := fun heq => hstate (heq ▸ hleads)
      obtain ⟨s₂, hreach', hdeposed, hlog⟩ := exists_deposed hQ hn hq hne hstate
      refine elect (hreach.trans hreach') hn hdeposed fun m hm => ?_
      rw [hlog m, hlog n]
      exact hbest m hm
    · exact elect hreach hn hleads hbest
  · -- a majority of one node is the whole cluster
    obtain ⟨n, hn, hbest⟩ := exists_best s hQ
    by_cases hleads : (s.nodes n).raft.state = .leader
    · refine ⟨s, .refl s, n, hn, ⟨h, hleads, fun q hq => ?_⟩⟩
      rw [Finset.card_le_one.1 hcard q hq n hn]
    · exact elect (.refl s) hn hleads hbest

/-- **A majority can always commit another command.**  Whatever has happened, the nodes of a
majority can go on by themselves, with new messages only, until one of them leads and a call of
`append_entry` with the given command has returned `True` there, the command having been applied. -/
theorem availability (hreturns : ∀ m calls command, callback m calls command = true)
    (h : Run (Raft.step M) (InTerm M) (initial callback) s) (hQ : M.IsMajority Q) (command : Cmd) :
    ∃ s', Reaches M Q s s' ∧ ∃ n ∈ Q, Commits n command s s' := by
  obtain ⟨s₁, hreach, n, hn, hL⟩ := exists_led h hQ
  obtain ⟨s', hreach', hC⟩ := exists_committed hreturns hQ hL hn command
  obtain ⟨acknowledged, i, hpre, hlast⟩ := hC.acknowledged
  exact ⟨s', hreach.trans hreach', n, hn, ⟨hC.leads, acknowledged, i,
    (acknowledged_isPrefix hreach).trans hpre, hlast⟩⟩

/-- Node 0 leads and stops.  The other two go on. -/
theorem availability_withoutLeader :
    ∃ s s' : Cluster (Fin 3) ℕ, Run (Raft.step trio) (InTerm trio) (initial returning) s ∧
      (s.nodes 0).raft.state = .leader ∧ Reaches trio {1, 2} s s' ∧
      ∃ n ∈ ({1, 2} : Finset (Fin 3)), Commits n 7 s s' := by
  obtain ⟨s, hs, hleads⟩ := Run.exists_of_exec (Raft.step trio) (InTerm trio) (initial returning)
    firstHeartbeat (fun s => (s.nodes 0).raft.state = .leader) (by decide)
  obtain ⟨s', hs', hcommits⟩ := availability (fun _ _ _ => rfl) hs
    (⟨by decide, by decide⟩ : trio.IsMajority {1, 2}) 7
  exact ⟨s, s', hs, hleads, hs', hcommits⟩

end Raft
