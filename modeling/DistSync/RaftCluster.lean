/-
**A cluster of Raft nodes: suspended coroutines, calls in flight, and the step function.**

`DistSync/RaftNode.lean` has the stretches of code between two awaits.  Here they are put together:
a node carries the frames of its suspended coroutines next to its Raft state, the network carries
the calls and the replies, and an action of the cluster resumes one coroutine or handles one call.

The scheduler is free: any suspended coroutine may be the next to run, a created task may start
late, a call may reach its peer late or never, and a reply may be lost.  A call stays in the
network after it was handled, so that handling it again (a repeated delivery) is a run as well.  A
coroutine that waits for several results may be resumed with any of them missing, which covers the
timeouts of the message bus and of `_replicate_log`.

Main definitions:

* `Raft.Membership` — the ids of a cluster, each node listing the others as its peers;
* `Raft.Process` — a node with its suspended coroutines;
* `Raft.Cluster`, `Raft.initial` — the state of the cluster and the one all nodes start in;
* `Raft.Action`, `Raft.step` — **what the cluster can do**.

Main results:

* `Raft.Membership.IsMajority.inter` — two majorities of a cluster share a node;
* `Raft.moves_of_step` — the inversion of `Raft.step`, one case for each way an action can go.
-/

import DistSync.RaftNode
import DistSync.RunRules
import Mathlib.Data.Finset.Card

set_option relaxedAutoImplicit false
set_option autoImplicit false

namespace Raft

variable {ν Cmd : Type}

/-! ### Members, coroutines, network -/

/-- The ids of a cluster: pairwise distinct, every node having all the others as its peers. -/
structure Membership (ν : Type) where
  nodes : List ν
  nodup : nodes.Nodup
  peers : ν → List ν
  peers_perm : ∀ n ∈ nodes, (n :: peers n).Perm nodes

namespace Membership

variable (M : Membership ν) {n : ν}

theorem length_peers (hn : n ∈ M.nodes) : (M.peers n).length + 1 = M.nodes.length := by
  simpa using (M.peers_perm n hn).length_eq

theorem mem_peers (hn : n ∈ M.nodes) {p : ν} : p ∈ M.peers n ↔ p ∈ M.nodes ∧ p ≠ n := by
  have hperm := M.peers_perm n hn
  have hnd : n ∉ M.peers n := (List.nodup_cons.1 (hperm.nodup_iff.2 M.nodup)).1
  rw [← hperm.mem_iff, List.mem_cons]
  constructor
  · intro hp
    exact ⟨.inr hp, fun h => hnd (h ▸ hp)⟩
  · rintro ⟨rfl | hp, hne⟩
    · exact absurd rfl hne
    · exact hp

/-- A set of members that holds more than half of them. -/
def IsMajority (Q : Finset ν) : Prop := (∀ p ∈ Q, p ∈ M.nodes) ∧ M.nodes.length < 2 * Q.card

/-- **Two majorities share a member.** -/
theorem IsMajority.inter [DecidableEq ν] {M : Membership ν} {Q R : Finset ν}
    (hQ : M.IsMajority Q) (hR : M.IsMajority R) : ∃ p ∈ Q, p ∈ R := by
  have hsub : ∀ {S : Finset ν}, M.IsMajority S → S ⊆ M.nodes.toFinset := fun hS p hp =>
    List.mem_toFinset.2 (hS.1 p hp)
  have hcard : M.nodes.toFinset.card < Q.card + R.card := by
    rw [List.toFinset_card_of_nodup M.nodup]
    have hQ2 := hQ.2
    have hR2 := hR.2
    omega
  obtain ⟨p, hp⟩ := Finset.inter_nonempty_of_card_lt_card_add_card (hsub hQ) (hsub hR) hcard
  exact ⟨p, Finset.mem_of_mem_inter_left hp, Finset.mem_of_mem_inter_right hp⟩

/-- What `majority()` counts to is a majority: a node and that many of its peers less one. -/
theorem isMajority_insert [DecidableEq ν] (hn : n ∈ M.nodes) {ps : List ν} (hnd : ps.Nodup)
    (hps : ∀ p ∈ ps, p ∈ M.peers n) (hlen : majority (M.peers n) ≤ 1 + ps.length) :
    M.IsMajority (insert n ps.toFinset) := by
  constructor
  · intro p hp
    rcases Finset.mem_insert.1 hp with rfl | hp
    · exact hn
    · exact ((M.mem_peers hn).1 (hps p (List.mem_toFinset.1 hp))).1
  · have hnot : n ∉ ps.toFinset := fun h =>
      ((M.mem_peers hn).1 (hps n (List.mem_toFinset.1 h))).2 rfl
    rw [Finset.card_insert_of_notMem hnot, List.toFinset_card_of_nodup hnd]
    have hpeers := M.length_peers hn
    simp only [majority] at hlen
    omega

end Membership

/-- Who waits for a replication task: the heartbeat loop or a call of `append_entry`. -/
inductive Owner
  | heartbeat
  | append (id : ℕ)
deriving DecidableEq, Repr

/-- How far a `_replicate_to_peer` task has got.  While it waits for the reply to its call it
keeps `next_index` and the payload in its frame. -/
inductive Stage (ν Cmd : Type)
  | created
  | awaiting (call : ℕ) (nextIndex : ℕ) (payload : AppendEntries ν Cmd)
  | finished (result : Bool)

/-- A `_replicate_to_peer` task. -/
structure ReplicateTask (ν Cmd : Type) where
  owner : Owner
  peer : ν
  stage : Stage ν Cmd

/-- The outcome of a task as `_replicate_log` sees it.  `_replicate_to_peer` does not raise. -/
def ReplicateTask.outcome (task : ReplicateTask ν Cmd) : TaskOutcome :=
  match task.stage with
  | .finished result => .returned result
  | _ => .pending

/-- The payload of a task that waits for its call. -/
def ReplicateTask.payload? (task : ReplicateTask ν Cmd) : Option (AppendEntries ν Cmd) :=
  match task.stage with
  | .awaiting _ _ payload => some payload
  | _ => none

/-- The frame of a call of `append_entry` that waits for `_replicate_log`. -/
structure AppendFrame (Cmd : Type) where
  id : ℕ
  entry : LogEntry Cmd
  entryIndex : ℕ

/-- A node with its suspended coroutines: the election loop inside `_start_election` (with the
payload it sent), the replication tasks, the calls of `append_entry`, and whether there is a
heartbeat loop.  `nextId` numbers the calls of `append_entry`. -/
structure Process (ν Cmd : Type) where
  raft : RaftNode ν Cmd
  election : Option (RequestVote ν)
  tasks : List (ReplicateTask ν Cmd)
  appends : List (AppendFrame Cmd)
  heartbeat : Bool
  nextId : ℕ

/-- A reply to a vote request, with the request and the node that answered it. -/
structure VoteAnswer (ν : Type) where
  payload : RequestVote ν
  voter : ν
  reply : VoteReply
deriving DecidableEq, Repr

/-- An AppendEntries call to a peer. -/
structure AppendCall (ν Cmd : Type) where
  peer : ν
  payload : AppendEntries ν Cmd

/-- The state of the cluster.  A vote request goes to every peer of its candidate; an
AppendEntries call is named by its position, and so are the replies to it.  `acknowledged` lists
the calls of `append_entry` that returned `True`: the node, the entry and its index. -/
structure Cluster (ν Cmd : Type) where
  nodes : ν → Process ν Cmd
  voteCalls : List (RequestVote ν)
  voteReplies : List (VoteAnswer ν)
  appendCalls : List (AppendCall ν Cmd)
  appendReplies : List (ℕ × AppendReply)
  acknowledged : List (ν × LogEntry Cmd × ℕ)

/-- All nodes as `__init__` leaves them, and nothing in flight. -/
def initial (callback : ν → ApplyCallback Cmd) : Cluster ν Cmd where
  nodes := fun n =>
    { raft := init (callback n)
      election := none
      tasks := []
      appends := []
      heartbeat := false
      nextId := 0 }
  voteCalls := []
  voteReplies := []
  appendCalls := []
  appendReplies := []
  acknowledged := []

/-! ### Actions -/

/-- What can happen next. -/
inductive Action (ν Cmd : Type)
  /-- The election loop of a node times out and calls `_start_election`. -/
  | electionTimeout (n : ν)
  /-- A peer of the candidate handles a vote request. -/
  | requestVote (call : ℕ) (voter : ν)
  /-- `_start_election` resumes with the replies that arrived in time. -/
  | electionResult (n : ν) (replies : List (ν × VoteReply))
  /-- `append_entry` is called with a command. -/
  | appendEntry (n : ν) (command : Cmd)
  /-- The heartbeat loop of a node begins its next round. -/
  | heartbeat (n : ν)
  /-- A replication task gets to run: it builds its payload and sends it. -/
  | replicateStart (n : ν) (task : ℕ)
  /-- A peer handles an AppendEntries call. -/
  | appendEntries (call : ℕ)
  /-- A replication task resumes with the reply to its call, or with none. -/
  | replicateEnd (n : ν) (task : ℕ) (reply : Option AppendReply)
  /-- `append_entry` resumes: all its tasks have finished, or the timeout has passed. -/
  | appendEnd (n : ν) (id : ℕ)

section Step

variable [DecidableEq ν] (M : Membership ν)

/-- The cluster with one node replaced. -/
def Cluster.set (s : Cluster ν Cmd) (n : ν) (p : Process ν Cmd) : Cluster ν Cmd :=
  { s with nodes := Function.update s.nodes n p }

/-- One replication task for every peer, created and not yet started. -/
def createTasks (owner : Owner) (peers : List ν) : List (ReplicateTask ν Cmd) :=
  peers.map fun peer => ⟨owner, peer, .created⟩

/-- `_election_loop` calls `_start_election` unless the node is leader; it waits for one election
to end before it starts the next. -/
def electionTimeout (s : Cluster ν Cmd) (n : ν) : Option (Cluster ν Cmd) :=
  let p := s.nodes n
  if n ∈ M.nodes ∧ p.raft.state ≠ .leader ∧ p.election = none then
    let (raft, payload) := startElection n p.raft
    some { s.set n { p with raft := raft, election := some payload } with
      voteCalls := s.voteCalls ++ [payload] }
  else none

/-- A vote request is handled and answered. -/
def requestVote (s : Cluster ν Cmd) (call : ℕ) (voter : ν) : Option (Cluster ν Cmd) :=
  match s.voteCalls[call]? with
  | none => none
  | some payload =>
      if voter ∈ M.peers payload.candidateId then
        let p := s.nodes voter
        let (raft, reply) := handleRequestVote p.raft payload
        some { s.set voter { p with raft := raft } with
          voteReplies := s.voteReplies ++ [⟨payload, voter, reply⟩] }
      else none

/-- The node that won its election: `_become_leader` replaces the heartbeat task, and cancelling
the old one cancels the replication tasks it waits for. -/
def Process.won (p : Process ν Cmd) (n : ν) (peers : List ν) : Process ν Cmd :=
  { p with
    raft := becomeLeader n peers p.raft
    election := none
    tasks := p.tasks.filter (·.owner ≠ .heartbeat)
    heartbeat := true }

/-- The tally of `_start_election` and what follows it. -/
def electionResult (s : Cluster ν Cmd) (n : ν) (replies : List (ν × VoteReply)) :
    Option (Cluster ν Cmd) :=
  let p := s.nodes n
  match p.election with
  | none => none
  | some payload =>
      -- `gather` has one result for each peer; calls that failed are left out of `replies`
      if (replies.map Prod.fst).Nodup ∧
          ∀ r ∈ replies, r.1 ∈ M.peers n ∧ ⟨payload, r.1, r.2⟩ ∈ s.voteReplies then
        if majority (M.peers n) ≤ countVotes (replies.map Prod.snd) then
          some (s.set n (p.won n (M.peers n)))
        else some (s.set n { p with election := none })
      else none

/-- A call of `append_entry` at a leader, up to the await in `_replicate_log`. -/
def appendCommand (s : Cluster ν Cmd) (n : ν) (command : Cmd) : Option (Cluster ν Cmd) :=
  let p := s.nodes n
  if p.raft.state = .leader then
    let (raft, entry, entryIndex) := appendEntry p.raft command
    some (s.set n { p with
      raft := raft
      tasks := p.tasks ++ createTasks (.append p.nextId) (M.peers n)
      appends := p.appends ++ [⟨p.nextId, entry, entryIndex⟩]
      nextId := p.nextId + 1 })
  else none

/-- One round of `_heartbeat_loop`, when the tasks of the last round have finished.  The loop ends
when the node is no longer leader. -/
def heartbeatRound (s : Cluster ν Cmd) (n : ν) : Option (Cluster ν Cmd) :=
  let p := s.nodes n
  -- the loop waits for all tasks of its last round before it looks at the state
  if p.heartbeat = true ∧ ∀ task ∈ p.tasks, task.owner = .heartbeat → task.outcome ≠ .pending then
    let tasks := p.tasks.filter (·.owner ≠ .heartbeat)
    if p.raft.state = .leader then
      some (s.set n { p with tasks := tasks ++ createTasks .heartbeat (M.peers n) })
    else some (s.set n { p with tasks := tasks, heartbeat := false })
  else none

/-- A replication task starts: the payload is built now. -/
def replicateStart (s : Cluster ν Cmd) (n : ν) (k : ℕ) : Option (Cluster ν Cmd) :=
  let p := s.nodes n
  match p.tasks[k]? with
  | some ⟨owner, peer, .created⟩ =>
      let payload := replicateToPeer n p.raft peer
      let stage := .awaiting s.appendCalls.length (p.raft.nextIndex peer) payload
      some { s.set n { p with tasks := p.tasks.set k ⟨owner, peer, stage⟩ } with
        appendCalls := s.appendCalls ++ [⟨peer, payload⟩] }
  | _ => none

/-- An AppendEntries call is handled; there is no reply when the handler raises. -/
def appendEntries (s : Cluster ν Cmd) (call : ℕ) : Option (Cluster ν Cmd) :=
  match s.appendCalls[call]? with
  | none => none
  | some ⟨peer, payload⟩ =>
      let p := s.nodes peer
      let (raft, reply) := handleAppendEntries p.raft payload
      some { s.set peer { p with raft := raft } with
        appendReplies := s.appendReplies ++ (reply.map fun r => (call, r)).toList }

/-- A replication task resumes after its call. -/
def replicateEnd (s : Cluster ν Cmd) (n : ν) (k : ℕ) (reply : Option AppendReply) :
    Option (Cluster ν Cmd) :=
  let p := s.nodes n
  match p.tasks[k]? with
  | some ⟨owner, peer, .awaiting call nextIndex payload⟩ =>
      -- any reply to this call may arrive, and so may none
      if ∀ r, reply = some r → (call, r) ∈ s.appendReplies then
        let (raft, result) := replicateReply p.raft peer nextIndex payload.entries.length reply
        some (s.set n { p with
          raft := raft
          tasks := p.tasks.set k ⟨owner, peer, .finished result⟩ })
      else none
  | _ => none

/-- The outcomes of the tasks that a call of `append_entry` waits for. -/
def Process.outcomes (p : Process ν Cmd) (id : ℕ) : List TaskOutcome :=
  (p.tasks.filter (·.owner = .append id)).map ReplicateTask.outcome

/-- A call of `append_entry` resumes after `_replicate_log` has stopped waiting; the tasks that
have not finished are cancelled. -/
def appendEnd (s : Cluster ν Cmd) (n : ν) (id : ℕ) : Option (Cluster ν Cmd) :=
  let p := s.nodes n
  match p.appends.find? (·.id = id) with
  | none => none
  | some frame =>
      let (raft, result) :=
        concludeAppend (M.peers n) p.raft frame.entryIndex (replicateLog (p.outcomes id))
      some { s.set n { p with
          raft := raft
          tasks := p.tasks.filter (·.owner ≠ .append id)
          appends := p.appends.filter (·.id ≠ id) } with
        acknowledged := s.acknowledged ++
          if result = true then [(n, frame.entry, frame.entryIndex)] else [] }

/-- **The step function of the cluster**; `none` when the action is not enabled. -/
def step (s : Cluster ν Cmd) : Action ν Cmd → Option (Cluster ν Cmd)
  | .electionTimeout n => electionTimeout M s n
  | .requestVote call voter => requestVote M s call voter
  | .electionResult n replies => electionResult M s n replies
  | .appendEntry n command => appendCommand M s n command
  | .heartbeat n => heartbeatRound M s n
  | .replicateStart n task => replicateStart s n task
  | .appendEntries call => appendEntries s call
  | .replicateEnd n task reply => replicateEnd s n task reply
  | .appendEnd n id => appendEnd M s n id

/-! ### What a step can do -/

/-- The ways in which an action can go, with everything that holds when it goes that way. -/
inductive Moves (s : Cluster ν Cmd) : Action ν Cmd → Cluster ν Cmd → Prop
  | electionTimeout {n : ν} (hn : n ∈ M.nodes) (hstate : (s.nodes n).raft.state ≠ .leader)
      (hidle : (s.nodes n).election = none) :
      Moves s (.electionTimeout n)
        { s.set n { s.nodes n with
            raft := (startElection n (s.nodes n).raft).1
            election := some (startElection n (s.nodes n).raft).2 } with
          voteCalls := s.voteCalls ++ [(startElection n (s.nodes n).raft).2] }
  | requestVote {call : ℕ} {voter : ν} {payload : RequestVote ν}
      (hcall : s.voteCalls[call]? = some payload)
      (hvoter : voter ∈ M.peers payload.candidateId) :
      Moves s (.requestVote call voter)
        { s.set voter { s.nodes voter with
            raft := (handleRequestVote (s.nodes voter).raft payload).1 } with
          voteReplies := s.voteReplies ++
            [⟨payload, voter, (handleRequestVote (s.nodes voter).raft payload).2⟩] }
  | electionWon {n : ν} {replies : List (ν × VoteReply)} {payload : RequestVote ν}
      (hel : (s.nodes n).election = some payload)
      (hnodup : (replies.map Prod.fst).Nodup)
      (hreplies : ∀ r ∈ replies, r.1 ∈ M.peers n ∧ ⟨payload, r.1, r.2⟩ ∈ s.voteReplies)
      (hwon : majority (M.peers n) ≤ countVotes (replies.map Prod.snd)) :
      Moves s (.electionResult n replies) (s.set n ((s.nodes n).won n (M.peers n)))
  | electionLost {n : ν} {replies : List (ν × VoteReply)} {payload : RequestVote ν}
      (hel : (s.nodes n).election = some payload)
      (hlost : countVotes (replies.map Prod.snd) < majority (M.peers n)) :
      Moves s (.electionResult n replies) (s.set n { s.nodes n with election := none })
  | appendEntry {n : ν} {command : Cmd} (hleader : (s.nodes n).raft.state = .leader) :
      Moves s (.appendEntry n command)
        (s.set n { s.nodes n with
          raft := (appendEntry (s.nodes n).raft command).1
          tasks := (s.nodes n).tasks ++ createTasks (.append (s.nodes n).nextId) (M.peers n)
          appends := (s.nodes n).appends ++
            [⟨(s.nodes n).nextId, (appendEntry (s.nodes n).raft command).2.1,
              (appendEntry (s.nodes n).raft command).2.2⟩]
          nextId := (s.nodes n).nextId + 1 })
  | heartbeat {n : ν} (hloop : (s.nodes n).heartbeat = true)
      (hleader : (s.nodes n).raft.state = .leader) :
      Moves s (.heartbeat n)
        (s.set n { s.nodes n with
          tasks := (s.nodes n).tasks.filter (·.owner ≠ .heartbeat) ++
            createTasks .heartbeat (M.peers n) })
  | heartbeatExit {n : ν} (hloop : (s.nodes n).heartbeat = true)
      (hstate : (s.nodes n).raft.state ≠ .leader) :
      Moves s (.heartbeat n)
        (s.set n { s.nodes n with
          tasks := (s.nodes n).tasks.filter (·.owner ≠ .heartbeat)
          heartbeat := false })
  | replicateStart {n : ν} {k : ℕ} {owner : Owner} {peer : ν}
      (htask : (s.nodes n).tasks[k]? = some ⟨owner, peer, .created⟩) :
      Moves s (.replicateStart n k)
        { s.set n { s.nodes n with
            tasks := (s.nodes n).tasks.set k ⟨owner, peer,
              .awaiting s.appendCalls.length ((s.nodes n).raft.nextIndex peer)
                (replicateToPeer n (s.nodes n).raft peer)⟩ } with
          appendCalls := s.appendCalls ++ [⟨peer, replicateToPeer n (s.nodes n).raft peer⟩] }
  | appendEntries {call : ℕ} {peer : ν} {payload : AppendEntries ν Cmd}
      (hcall : s.appendCalls[call]? = some ⟨peer, payload⟩) :
      Moves s (.appendEntries call)
        { s.set peer { s.nodes peer with
            raft := (handleAppendEntries (s.nodes peer).raft payload).1 } with
          appendReplies := s.appendReplies ++
            ((handleAppendEntries (s.nodes peer).raft payload).2.map fun r => (call, r)).toList }
  | replicateEnd {n : ν} {k : ℕ} {reply : Option AppendReply} {owner : Owner} {peer : ν}
      {call nextIndex : ℕ} {payload : AppendEntries ν Cmd}
      (htask : (s.nodes n).tasks[k]? = some ⟨owner, peer, .awaiting call nextIndex payload⟩)
      (hreply : ∀ r, reply = some r → (call, r) ∈ s.appendReplies) :
      Moves s (.replicateEnd n k reply)
        (s.set n { s.nodes n with
          raft := (replicateReply (s.nodes n).raft peer nextIndex payload.entries.length reply).1
          tasks := (s.nodes n).tasks.set k ⟨owner, peer, .finished
            (replicateReply (s.nodes n).raft peer nextIndex payload.entries.length reply).2⟩ })
  | appendEnd {n : ν} {id : ℕ} {frame : AppendFrame Cmd}
      (hframe : (s.nodes n).appends.find? (·.id = id) = some frame) :
      Moves s (.appendEnd n id)
        { s.set n { s.nodes n with
            raft := (concludeAppend (M.peers n) (s.nodes n).raft frame.entryIndex
              (replicateLog ((s.nodes n).outcomes id))).1
            tasks := (s.nodes n).tasks.filter (·.owner ≠ .append id)
            appends := (s.nodes n).appends.filter (·.id ≠ id) } with
          acknowledged := s.acknowledged ++
            if (concludeAppend (M.peers n) (s.nodes n).raft frame.entryIndex
              (replicateLog ((s.nodes n).outcomes id))).2 = true
            then [(n, frame.entry, frame.entryIndex)] else [] }

variable {M} {s s' : Cluster ν Cmd}

@[simp] theorem Cluster.set_nodes_self (n : ν) (p : Process ν Cmd) : (s.set n p).nodes n = p := by
  simp [Cluster.set]

@[simp] theorem Cluster.set_nodes_of_ne {m n : ν} (h : m ≠ n) (p : Process ν Cmd) :
    (s.set n p).nodes m = s.nodes m := by
  simp [Cluster.set, h]

/-- A reflexive relation between a process and its successor need only be checked where a process
was replaced. -/
theorem Cluster.set_rel {R : Process ν Cmd → Process ν Cmd → Prop} (hrefl : ∀ p, R p p) {n : ν}
    {p : Process ν Cmd} (h : R (s.nodes n) p) (m : ν) : R (s.nodes m) ((s.set n p).nodes m) := by
  by_cases hm : m = n
  · subst hm
    rwa [Cluster.set_nodes_self]
  · rw [Cluster.set_nodes_of_ne hm]
    exact hrefl _

/-- A property of all processes need only be checked where a process was replaced. -/
theorem Cluster.set_forall {P : ν → Process ν Cmd → Prop} (hs : ∀ m, P m (s.nodes m)) {n : ν}
    {p : Process ν Cmd} (h : P n p) (m : ν) : P m ((s.set n p).nodes m) := by
  by_cases hm : m = n
  · subst hm
    rwa [Cluster.set_nodes_self]
  · rw [Cluster.set_nodes_of_ne hm]
    exact hs m

/-- **The inversion of a step.** -/
theorem moves_of_step {a : Action ν Cmd} (h : step M s a = some s') : Moves M s a s' := by
  cases a with
  | electionTimeout n =>
      simp only [step, electionTimeout, Option.ite_none_right_eq_some, Option.some.injEq] at h
      obtain ⟨⟨hn, hstate, hidle⟩, rfl⟩ := h
      exact .electionTimeout hn hstate hidle
  | requestVote call voter =>
      simp only [step, requestVote] at h
      split at h
      · cases h
      · next payload hcall =>
          simp only [Option.ite_none_right_eq_some, Option.some.injEq] at h
          obtain ⟨hvoter, rfl⟩ := h
          exact .requestVote hcall hvoter
  | electionResult n replies =>
      simp only [step, electionResult] at h
      split at h
      · cases h
      · next payload hel =>
          simp only [Option.ite_none_right_eq_some] at h
          obtain ⟨⟨hnodup, hreplies⟩, h⟩ := h
          split at h
          · next hwon =>
              cases h
              exact .electionWon hel hnodup hreplies hwon
          · next hlost =>
              cases h
              exact .electionLost hel (not_le.1 hlost)
  | appendEntry n command =>
      simp only [step, appendCommand, Option.ite_none_right_eq_some, Option.some.injEq] at h
      obtain ⟨hleader, rfl⟩ := h
      exact .appendEntry hleader
  | heartbeat n =>
      simp only [step, heartbeatRound, Option.ite_none_right_eq_some] at h
      obtain ⟨⟨hloop, -⟩, h⟩ := h
      split at h
      · next hleader =>
          cases h
          exact .heartbeat hloop hleader
      · next hstate =>
          cases h
          exact .heartbeatExit hloop hstate
  | replicateStart n k =>
      simp only [step, replicateStart] at h
      split at h
      · next htask =>
          cases h
          exact .replicateStart htask
      · cases h
  | appendEntries call =>
      simp only [step, appendEntries] at h
      split at h
      · cases h
      · next hcall =>
          cases h
          exact .appendEntries hcall
  | replicateEnd n k reply =>
      simp only [step, replicateEnd] at h
      split at h
      · next htask =>
          simp only [Option.ite_none_right_eq_some, Option.some.injEq] at h
          obtain ⟨hreply, rfl⟩ := h
          exact .replicateEnd htask hreply
      · cases h
  | appendEnd n id =>
      simp only [step, appendEnd] at h
      split at h
      · cases h
      · next hframe =>
          cases h
          exact .appendEnd hframe

end Step

end Raft
