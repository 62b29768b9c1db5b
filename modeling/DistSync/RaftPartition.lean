/-
**A partition of the network.**

Every node has a message bus with a set of blocked peers, which `/admin/partition` changes; a
request to a blocked peer is not sent.  Here the cluster of `DistSync/RaftCluster.lean` runs over
these buses: a peer can handle a request only when the bus of the sender has let it through, and the
steps of the cluster are otherwise the ones from before, so that everything that holds in all runs
of the cluster holds under every partition.

The tasks of `_start_election` look at the bus when they get to run, each of them once, and
`_start_election` goes on when all of them have.  `_replicate_to_peer` looks at it when it has built
its payload.  A request that the bus refuses gets no reply.  Only the sender looks: a peer that a
node has blocked can still reach this node.

Main definitions:

* `Raft.handlePartition` — what `/admin/partition` does to the blocked peers;
* `Raft.Partitioned`, `Raft.busStep` — **the cluster over its message buses**;
* `Raft.CutOff` — what a node that blocks too many peers cannot get.

Main results:

* `Raft.cluster_run` — the runs are runs of the cluster;
* `Raft.minorityIsInert` — **a node that has blocked too many peers neither wins an election nor
  acknowledges nor commits anything**;
* `Raft.majorityGoesOn` — **the nodes of a majority that do not block each other can always commit
  another command**.
-/

import DistSync.RaftAvailability

set_option relaxedAutoImplicit false
set_option autoImplicit false

namespace Raft

open Runs

variable {ν Cmd : Type} [DecidableEq ν]

/-! ### Blocked peers -/

/-- `handle_partition`: the peers under `block` are blocked, then the ones under `unblock` are
unblocked. -/
def handlePartition (blockedPeers : Finset ν) (block unblock : List ν) : Finset ν :=
  unblock.foldl Finset.erase (block.foldl (fun blocked peer => insert peer blocked) blockedPeers)

theorem mem_foldl_insert (block : List ν) (blockedPeers : Finset ν) (p : ν) :
    p ∈ block.foldl (fun blocked peer => insert peer blocked) blockedPeers ↔
      p ∈ block ∨ p ∈ blockedPeers := by
  induction block generalizing blockedPeers with
  | nil => simp
  | cons peer block ih =>
      rw [List.foldl_cons, ih, Finset.mem_insert, List.mem_cons]
      tauto

theorem mem_foldl_erase (unblock : List ν) (blockedPeers : Finset ν) (p : ν) :
    p ∈ unblock.foldl Finset.erase blockedPeers ↔ p ∉ unblock ∧ p ∈ blockedPeers := by
  induction unblock generalizing blockedPeers with
  | nil => simp
  | cons peer unblock ih =>
      rw [List.foldl_cons, ih, Finset.mem_erase, List.mem_cons]
      tauto

/-- **A peer under both is not blocked.** -/
@[simp] theorem mem_handlePartition {blockedPeers : Finset ν} {block unblock : List ν} {p : ν} :
    p ∈ handlePartition blockedPeers block unblock ↔
      p ∉ unblock ∧ (p ∈ block ∨ p ∈ blockedPeers) := by
  rw [handlePartition, mem_foldl_erase, mem_foldl_insert]

/-! ### The cluster over its message buses -/

/-- The cluster with the blocked peers of each message bus, the tasks of `_start_election` that have
not yet run, and the requests that were sent; a request is named by its position in the cluster. -/
structure Partitioned (ν Cmd : Type) where
  cluster : Cluster ν Cmd
  blockedPeers : ν → Finset ν
  voteTasks : List (ℕ × ν)
  votesSent : List (ℕ × ν)
  appendsSent : List ℕ

/-- What can happen next. -/
inductive BusAction (ν Cmd : Type)
  /-- `/admin/partition` is called at a node. -/
  | partition (n : ν) (block unblock : List ν)
  /-- A task of `_start_election` gets to run. -/
  | sendVote (call : ℕ) (peer : ν)
  /-- A step of the cluster. -/
  | raft (action : Action ν Cmd)

/-- All nodes as `__init__` leaves them; no peer is blocked. -/
def unpartitioned (callback : ν → ApplyCallback Cmd) : Partitioned ν Cmd where
  cluster := initial callback
  blockedPeers := fun _ => ∅
  voteTasks := []
  votesSent := []
  appendsSent := []

namespace Partitioned

/-- A request is handled when it was sent, and `_start_election` goes on when its tasks have run. -/
def Allows (s : Partitioned ν Cmd) : Action ν Cmd → Prop
  | .requestVote call voter => (call, voter) ∈ s.votesSent
  | .electionResult n _ =>
      ∀ task ∈ s.voteTasks, ∀ payload ∈ s.cluster.voteCalls[task.1]?, payload.candidateId ≠ n
  | .appendEntries call => call ∈ s.appendsSent
  | _ => True

instance decidableAllows (s : Partitioned ν Cmd) : DecidablePred s.Allows
  | .requestVote _ _ => inferInstanceAs (Decidable (_ ∈ _))
  | .electionResult _ _ => inferInstanceAs (Decidable (∀ _ ∈ _, _))
  | .appendEntries _ => inferInstanceAs (Decidable (_ ∈ _))
  | .electionTimeout _ | .appendEntry _ _ | .heartbeat _ | .replicateStart _ _
  | .replicateEnd _ _ _ | .appendEnd _ _ => .isTrue trivial

/-- The AppendEntries request that a replication task sends, if the bus lets it through. -/
def sends (s : Partitioned ν Cmd) : Action ν Cmd → List ℕ
  | .replicateStart n k =>
      match (s.cluster.nodes n).tasks[k]? with
      | some task => if task.peer ∈ s.blockedPeers n then [] else [s.cluster.appendCalls.length]
      | none => []
  | _ => []

/-- The tasks that `_start_election` creates, one for every peer. -/
def creates (M : Membership ν) (s : Partitioned ν Cmd) : Action ν Cmd → List (ℕ × ν)
  | .electionTimeout n => (M.peers n).map fun peer => (s.cluster.voteCalls.length, peer)
  | _ => []

end Partitioned

/-- **The step function of the cluster over its buses.** -/
def busStep (M : Membership ν) (s : Partitioned ν Cmd) :
    BusAction ν Cmd → Option (Partitioned ν Cmd)
  | .partition n block unblock =>
      some { s with blockedPeers :=
        Function.update s.blockedPeers n (handlePartition (s.blockedPeers n) block unblock) }
  | .sendVote call peer =>
      match s.cluster.voteCalls[call]? with
      | none => none
      | some payload =>
          if (call, peer) ∈ s.voteTasks then
            some { s with
              voteTasks := s.voteTasks.erase (call, peer)
              votesSent := s.votesSent ++
                if peer ∈ s.blockedPeers payload.candidateId then [] else [(call, peer)] }
          else none
  | .raft action =>
      if s.Allows action then
        (Raft.step M s.cluster action).map fun cluster =>
          { s with
            cluster := cluster
            voteTasks := s.voteTasks ++ s.creates M action
            appendsSent := s.appendsSent ++ s.sends action }
      else none

variable {M : Membership ν} {s s' : Partitioned ν Cmd} {callback : ν → ApplyCallback Cmd} {n : ν}

/-- What a step does to the cluster: nothing, or an allowed step. -/
theorem busStep_raft {a : Action ν Cmd} (h : busStep M s (.raft a) = some s') :
    s.Allows a ∧ Raft.step M s.cluster a = some s'.cluster ∧
      s' = { s with
        cluster := s'.cluster
        voteTasks := s.voteTasks ++ s.creates M a
        appendsSent := s.appendsSent ++ s.sends a } := by
  simp only [busStep, Option.ite_none_right_eq_some] at h
  obtain ⟨hallows, h⟩ := h
  obtain ⟨cluster, hstep, rfl⟩ := Option.map_eq_some_iff.1 h
  exact ⟨hallows, hstep, rfl⟩

/-- The runs over the buses that take the steps of the cluster in a way that `ok` allows. -/
def Lifts (ok : Cluster ν Cmd → Action ν Cmd → Prop) (s : Partitioned ν Cmd) :
    BusAction ν Cmd → Prop
  | .raft a => ok s.cluster a
  | _ => True

instance decidableLifts (ok : Cluster ν Cmd → Action ν Cmd → Prop) [∀ c a, Decidable (ok c a)]
    (s : Partitioned ν Cmd) : DecidablePred (Lifts ok s)
  | .raft _ => inferInstanceAs (Decidable (ok _ _))
  | .partition _ _ _ | .sendVote _ _ => .isTrue trivial

/-- **They are runs of the cluster.** -/
theorem cluster_run {ok : Cluster ν Cmd → Action ν Cmd → Prop}
    (h : Run (busStep M) (Lifts ok) s s') : Run (Raft.step M) ok s.cluster s'.cluster := by
  induction h with
  | refl => exact .refl _
  | @tail s₁ s₂ a _ hok hstep ih =>
      cases a with
      | partition n block unblock =>
          obtain rfl := Option.some.inj hstep
          exact ih
      | sendVote call peer =>
          simp only [busStep] at hstep
          split at hstep
          · cases hstep
          · simp only [Option.ite_none_right_eq_some, Option.some.injEq] at hstep
            obtain ⟨-, rfl⟩ := hstep
            exact ih
      | raft a => exact ih.tail hok (busStep_raft hstep).2.1

/-! ### What a step adds to the network -/

section Network

variable {c c' : Cluster ν Cmd} {a : Action ν Cmd}

/-- A new vote reply answers a request that is handled. -/
theorem Moves.mem_voteReplies (h : Moves M c a c') {answer : VoteAnswer ν}
    (hanswer : answer ∈ c'.voteReplies) : answer ∈ c.voteReplies ∨
      ∃ call, a = .requestVote call answer.voter ∧ c.voteCalls[call]? = some answer.payload := by
  cases h
  case requestVote call voter payload hcall hvoter =>
    rcases List.mem_append.1 hanswer with hold | hnew
    · exact .inl hold
    · obtain rfl := List.mem_singleton.1 hnew
      exact .inr ⟨call, rfl, hcall⟩
  all_goals exact .inl hanswer

/-- So does a new reply to an AppendEntries request. -/
theorem Moves.fst_appendReplies (h : Moves M c a c') {r : ℕ × AppendReply}
    (hr : r ∈ c'.appendReplies) : r ∈ c.appendReplies ∨ a = .appendEntries r.1 := by
  cases h
  case appendEntries call peer payload hcall =>
    rcases List.mem_append.1 hr with hold | hnew
    · exact .inl hold
    · obtain ⟨reply, -, rfl⟩ := Option.map_eq_some_iff.1 (Option.mem_toList.1 hnew)
      exact .inr rfl
  all_goals exact .inl hr

/-- The election of a node is the one from before, or it is for the term that comes next. -/
theorem Moves.election_cases (h : Moves M c a c') (n : ν) : ∀ payload,
    (c'.nodes n).election = some payload → (c.nodes n).election = some payload ∨
      payload.candidateId = n ∧ payload.term = (c.nodes n).raft.currentTerm + 1 := by
  have key : ∀ {m : ν} {p : Process ν Cmd}, (∀ payload, p.election = some payload →
      (c.nodes m).election = some payload ∨
        payload.candidateId = m ∧ payload.term = (c.nodes m).raft.currentTerm + 1) →
      ∀ payload, ((c.set m p).nodes n).election = some payload →
        (c.nodes n).election = some payload ∨
          payload.candidateId = n ∧ payload.term = (c.nodes n).raft.currentTerm + 1 := fun hp =>
    Cluster.set_forall (P := fun m p => ∀ payload, p.election = some payload →
      (c.nodes m).election = some payload ∨
        payload.candidateId = m ∧ payload.term = (c.nodes m).raft.currentTerm + 1)
      (fun _ _ => .inl) hp n
  cases h
  case electionTimeout =>
    refine key fun payload hel => .inr ?_
    obtain rfl := Option.some.inj hel
    exact ⟨rfl, rfl⟩
  case electionWon => exact key fun _ hel => by cases hel
  case electionLost => exact key fun _ hel => by cases hel
  all_goals exact key fun _ => .inl

/-- A new call of `append_entry` gets the next number. -/
theorem Moves.appends_cases (h : Moves M c a c') (n : ν) :
    (c.nodes n).nextId ≤ (c'.nodes n).nextId ∧ ∀ frame ∈ (c'.nodes n).appends,
      frame ∈ (c.nodes n).appends ∨ frame.id = (c.nodes n).nextId := by
  have key : ∀ {m : ν} {p : Process ν Cmd}, ((c.nodes m).nextId ≤ p.nextId ∧
      ∀ frame ∈ p.appends, frame ∈ (c.nodes m).appends ∨ frame.id = (c.nodes m).nextId) →
      (c.nodes n).nextId ≤ ((c.set m p).nodes n).nextId ∧
        ∀ frame ∈ ((c.set m p).nodes n).appends,
          frame ∈ (c.nodes n).appends ∨ frame.id = (c.nodes n).nextId := fun hp =>
    Cluster.set_rel (R := fun p p' => p.nextId ≤ p'.nextId ∧
      ∀ frame ∈ p'.appends, frame ∈ p.appends ∨ frame.id = p.nextId)
      (fun _ => ⟨le_rfl, fun _ => .inl⟩) hp n
  cases h
  case appendEntry =>
    refine key ⟨Nat.le_succ _, fun frame hframe => ?_⟩
    rcases List.mem_append.1 hframe with hold | hnew
    · exact .inl hold
    · exact .inr (List.mem_singleton.1 hnew ▸ rfl)
  case appendEnd => exact key ⟨le_rfl, fun frame hframe => .inl (List.mem_of_mem_filter hframe)⟩
  all_goals exact key ⟨le_rfl, fun _ => .inl⟩

/-- A replication task that starts makes a call. -/
theorem Moves.length_of_replicateStart {k : ℕ} (h : Moves M c (.replicateStart n k) c') :
    c.appendCalls.length < c'.appendCalls.length := by
  cases h with
  | replicateStart => simp

/-- Where a replication task comes from. -/
inductive TaskMove (c : Cluster ν Cmd) (a : Action ν Cmd) (n : ν) (task : ReplicateTask ν Cmd) :
    Prop
  | kept (hmem : task ∈ (c.nodes n).tasks)
  | created (hstage : task.stage = .created)
  | sent {k : ℕ} {old : ReplicateTask ν Cmd} {next : ℕ} {payload : AppendEntries ν Cmd}
      (ha : a = .replicateStart n k) (hold : (c.nodes n).tasks[k]? = some old)
      (hpeer : task.peer = old.peer)
      (hstage : task.stage = .awaiting c.appendCalls.length next payload)
  | ended {old : ReplicateTask ν Cmd} {call next : ℕ} {payload : AppendEntries ν Cmd}
      {result : Bool} (hold : old ∈ (c.nodes n).tasks) (howner : task.owner = old.owner)
      (hpeer : task.peer = old.peer) (hwait : old.stage = .awaiting call next payload)
      (hstage : task.stage = .finished result)
      (hresult : result = true → ∃ r, (call, r) ∈ c.appendReplies)

theorem Moves.task_cases (h : Moves M c a c') (n : ν) :
    ∀ task ∈ (c'.nodes n).tasks, TaskMove c a n task := by
  have key : ∀ {m : ν} {p : Process ν Cmd}, (∀ task ∈ p.tasks, TaskMove c a m task) →
      ∀ task ∈ ((c.set m p).nodes n).tasks, TaskMove c a n task := fun hp =>
    Cluster.set_forall (P := fun m p => ∀ task ∈ p.tasks, TaskMove c a m task)
      (fun _ _ => .kept) hp n
  have hfilter : ∀ (m : ν) (keep : ReplicateTask ν Cmd → Bool),
      ∀ task ∈ (c.nodes m).tasks.filter keep, TaskMove c a m task :=
    fun _ _ _ hmem => .kept (List.mem_of_mem_filter hmem)
  have happend : ∀ {m : ν} {owner : Owner} {tasks : List (ReplicateTask ν Cmd)},
      (∀ task ∈ tasks, TaskMove c a m task) →
      ∀ task ∈ tasks ++ createTasks owner (M.peers m), TaskMove c a m task := by
    intro m owner tasks htasks task hmem
    rcases List.mem_append.1 hmem with hmem | hmem
    · exact htasks task hmem
    · obtain ⟨peer, -, rfl⟩ := List.mem_map.1 hmem
      exact .created rfl
  cases h with
  | electionTimeout => exact key fun _ => .kept
  | requestVote => exact key fun _ => .kept
  | electionWon => exact key (hfilter _ _)
  | electionLost => exact key fun _ => .kept
  | appendEntry => exact key (happend fun _ => .kept)
  | heartbeat => exact key (happend (hfilter _ _))
  | heartbeatExit => exact key (hfilter _ _)
  | replicateStart htask =>
      refine key fun task hmem => ?_
      rcases List.mem_or_eq_of_mem_set hmem with hmem | rfl
      · exact .kept hmem
      · exact .sent rfl htask rfl rfl
  | appendEntries => exact key fun _ => .kept
  | @replicateEnd n k reply owner peer call next payload htask hreply =>
      refine key fun task hmem => ?_
      rcases List.mem_or_eq_of_mem_set hmem with hmem | rfl
      · exact .kept hmem
      · refine .ended (List.mem_of_getElem? htask) rfl rfl rfl rfl fun hresult => ?_
        -- only a reply makes a task return `True`
        cases reply with
        | none => cases hresult
        | some r => exact ⟨r, hreply r rfl⟩
  | appendEnd => exact key (hfilter _ _)

end Network

/-! ### What the buses have let through -/

/-- Requests that were sent or will be are in the network, and replies answer sent ones. -/
structure BusInv (s : Partitioned ν Cmd) : Prop where
  task : ∀ task ∈ s.voteTasks, task.1 < s.cluster.voteCalls.length
  vote : ∀ task ∈ s.votesSent, task.1 < s.cluster.voteCalls.length
  append : ∀ call ∈ s.appendsSent, call < s.cluster.appendCalls.length
  answer : ∀ answer ∈ s.cluster.voteReplies, answer.payload ∈ s.cluster.voteCalls
  reply : ∀ r ∈ s.cluster.appendReplies, r.1 ∈ s.appendsSent

omit [DecidableEq ν] in
theorem busInv_unpartitioned : BusInv (unpartitioned callback) := by
  constructor <;> intro x hx <;> cases hx

/-- What `_replicate_to_peer` sends is the newest request, and the peer is not blocked. -/
theorem Partitioned.mem_sends {a : Action ν Cmd} {call : ℕ} (h : call ∈ s.sends a) :
    call = s.cluster.appendCalls.length ∧ ∃ m k task, a = .replicateStart m k ∧
      (s.cluster.nodes m).tasks[k]? = some task ∧ task.peer ∉ s.blockedPeers m := by
  cases a with
  | replicateStart m k =>
      simp only [sends] at h
      split at h
      · next task htask =>
          split at h
          · cases h
          · next hpeer => exact ⟨List.mem_singleton.1 h, m, k, task, rfl, htask, hpeer⟩
      · cases h
  | _ => cases h

/-- A sent request is in the network after the step that sends it. -/
theorem Partitioned.sends_lt {a : Action ν Cmd} {c : Cluster ν Cmd} (h : Moves M s.cluster a c)
    {call : ℕ} (hcall : call ∈ s.sends a) : call < c.appendCalls.length := by
  obtain ⟨rfl, m, k, task, rfl, htask, -⟩ := s.mem_sends hcall
  exact h.length_of_replicateStart

/-- The tasks that `_start_election` creates send its request. -/
theorem Partitioned.creates_lt {a : Action ν Cmd} {c : Cluster ν Cmd} (h : Moves M s.cluster a c)
    {task : ℕ × ν} (htask : task ∈ s.creates M a) : task.1 < c.voteCalls.length := by
  cases h
  case electionTimeout =>
    obtain ⟨peer, -, rfl⟩ := List.mem_map.1 htask
    simp
  all_goals cases htask

theorem BusInv.step {a : BusAction ν Cmd} (hI : BusInv s) (h : busStep M s a = some s') :
    BusInv s' := by
  cases a with
  | partition m block unblock =>
      obtain rfl := Option.some.inj h
      exact ⟨hI.task, hI.vote, hI.append, hI.answer, hI.reply⟩
  | sendVote call peer =>
      simp only [busStep] at h
      split at h
      · cases h
      · simp only [Option.ite_none_right_eq_some, Option.some.injEq] at h
        obtain ⟨hmem, rfl⟩ := h
        refine ⟨fun task htask => hI.task task (List.mem_of_mem_erase htask), fun task htask => ?_,
          hI.append, hI.answer, hI.reply⟩
        rcases List.mem_append.1 htask with hold | hnew
        · exact hI.vote task hold
        · split at hnew
          · cases hnew
          · obtain rfl := List.mem_singleton.1 hnew
            exact hI.task _ hmem
  | raft a =>
      obtain ⟨hallows, hstep, hs'⟩ := busStep_raft h
      have hmoves := moves_of_step hstep
      have happends := hmoves.appendCalls_prefix
      have hvotes := hmoves.voteCalls_isPrefix.length_le
      rw [hs']
      refine ⟨fun task htask => ?_, fun task htask => (hI.vote task htask).trans_le hvotes,
        fun call hcall => ?_, fun answer hanswer => ?_, fun r hr => ?_⟩
      · rcases List.mem_append.1 htask with hold | hnew
        · exact (hI.task task hold).trans_le hvotes
        · exact s.creates_lt hmoves hnew
      · rcases List.mem_append.1 hcall with hold | hnew
        · exact (hI.append call hold).trans_le happends.length_le
        · exact s.sends_lt hmoves hnew
      · rcases hmoves.mem_voteReplies hanswer with hold | ⟨call, -, hcall⟩
        · exact hmoves.network_mono.1 (hI.answer answer hold)
        · exact hmoves.network_mono.1 (List.mem_of_getElem? hcall)
      · refine List.mem_append_left _ ?_
        rcases hmoves.fst_appendReplies hr with hold | rfl
        · exact hI.reply r hold
        · exact hallows

theorem busInv_run {ok : Partitioned ν Cmd → BusAction ν Cmd → Prop}
    (h : Run (busStep M) ok (unpartitioned callback) s) : BusInv s :=
  h.invariant (fun _ _ _ hI _ hstep => hI.step hstep) busInv_unpartitioned

/-! ### A node that is cut off -/

/-- `/admin/partition` keeps the peers of `B` blocked at `n`. -/
def KeepsBlocked (n : ν) (B : Finset ν) (_ : Partitioned ν Cmd) : BusAction ν Cmd → Prop
  | .partition m _ unblock => m = n → ∀ p ∈ unblock, p ∉ B
  | _ => True

instance decidableKeepsBlocked (n : ν) (B : Finset ν) (s : Partitioned ν Cmd) :
    DecidablePred (KeepsBlocked n B s)
  | .partition _ _ _ => inferInstanceAs (Decidable (_ → ∀ _ ∈ _, _))
  | .sendVote _ _ | .raft _ => .isTrue trivial

/-- A task of a call of `append_entry` from number `id` on has reached none of the peers of `B`. -/
def Unreached (s : Partitioned ν Cmd) (B : Finset ν) (id : ℕ) (task : ReplicateTask ν Cmd) :
    Prop :=
  ∀ i, id ≤ i → task.owner = .append i →
    (∀ call next payload, task.stage = .awaiting call next payload →
      call < s.cluster.appendCalls.length ∧ (call ∈ s.appendsSent → task.peer ∉ B)) ∧
    (task.stage = .finished true → task.peer ∉ B)

/-- The node `n` has blocked the peers of `B` ever since it was in the term `T` and the next call of
`append_entry` had the number `id`: none of them has got a request of a later election or a later
call. -/
structure CutOff (n : ν) (B : Finset ν) (T id : ℕ) (s : Partitioned ν Cmd) : Prop where
  blocked : B ⊆ s.blockedPeers n
  term_le : T ≤ (s.cluster.nodes n).raft.currentTerm
  request : ∀ call peer, (call, peer) ∈ s.votesSent → ∀ payload,
    s.cluster.voteCalls[call]? = some payload → payload.candidateId = n → T < payload.term →
      peer ∉ B
  answer : ∀ answer ∈ s.cluster.voteReplies, answer.payload.candidateId = n →
    T < answer.payload.term → answer.voter ∉ B
  election : ∀ payload, (s.cluster.nodes n).election = some payload →
    payload.candidateId = n ∧ T < payload.term
  id_le : id ≤ (s.cluster.nodes n).nextId
  frame : ∀ frame ∈ (s.cluster.nodes n).appends, id ≤ frame.id
  task : ∀ task ∈ (s.cluster.nodes n).tasks, Unreached s B id task

variable {B : Finset ν} {T id : ℕ}

/-- Nothing is under way when the peers are blocked. -/
theorem cutOff_of_idle (hI : BusInv s) (hvotes : VoteInv s.cluster)
    (htasks : TaskListInv M n (s.cluster.nodes n)) (hblocked : B ⊆ s.blockedPeers n)
    (helection : (s.cluster.nodes n).election = none)
    (happends : (s.cluster.nodes n).appends = []) :
    CutOff n B (s.cluster.nodes n).raft.currentTerm (s.cluster.nodes n).nextId s := by
  -- no request of the node is for a later term
  have hold : ∀ payload ∈ s.cluster.voteCalls, payload.candidateId = n →
      ¬ (s.cluster.nodes n).raft.currentTerm < payload.term := fun payload hpayload hcandidate =>
    not_lt.2 (hvotes.term_le (.inl ⟨rfl, payload, hpayload, hcandidate, rfl⟩))
  exact {
    blocked := hblocked
    term_le := le_rfl
    request := fun _ _ _ payload hpayload hcandidate hterm =>
      absurd hterm (hold payload (List.mem_of_getElem? hpayload) hcandidate)
    answer := fun answer hanswer hcandidate hterm =>
      absurd hterm (hold answer.payload (hI.answer answer hanswer) hcandidate)
    election := fun _ hel => by rw [helection] at hel; cases hel
    id_le := le_rfl
    frame := fun _ hframe => by rw [happends] at hframe; cases hframe
    task := fun task htask i hi howner =>
      absurd (htasks.task_lt task htask i howner) (not_lt.2 hi) }

omit [DecidableEq ν] in
/-- A task stays unreached while it is kept. -/
theorem Unreached.mono {task : ReplicateTask ν Cmd} (h : Unreached s B id task)
    (happends : s.cluster.appendCalls <+: s'.cluster.appendCalls)
    (hsent : ∀ call < s.cluster.appendCalls.length, call ∈ s'.appendsSent → call ∈ s.appendsSent) :
    Unreached s' B id task := fun i hi howner =>
  ⟨fun call next payload hstage =>
    let ⟨hlt, hpeer⟩ := (h i hi howner).1 call next payload hstage
    ⟨hlt.trans_le happends.length_le, fun hcall => hpeer (hsent call hlt hcall)⟩,
    (h i hi howner).2⟩

/-- The requests of the node have not reached a peer of `B` after a step of the cluster. -/
theorem CutOff.unreached {a : Action ν Cmd} (hC : CutOff n B T id s) (hI : BusInv s)
    (h : busStep M s (.raft a) = some s') {task : ReplicateTask ν Cmd}
    (htask : TaskMove s.cluster a n task) : Unreached s' B id task := by
  obtain ⟨-, hstep, hs'⟩ := busStep_raft h
  have hmoves := moves_of_step hstep
  have hsent : s'.appendsSent = s.appendsSent ++ s.sends a := by rw [hs']
  cases htask with
  | kept hmem =>
      refine (hC.task task hmem).mono hmoves.appendCalls_prefix fun call hlt hcall => ?_
      -- what is sent now is a new request
      rw [hsent] at hcall
      refine (List.mem_append.1 hcall).resolve_right fun hmem => ?_
      exact hlt.ne (s.mem_sends hmem).1
  | created hstage =>
      refine fun _ _ _ => ⟨fun _ _ _ hwait => ?_, fun hended => ?_⟩
      · rw [hstage] at hwait
        cases hwait
      · rw [hstage] at hended
        cases hended
  | @sent k old next payload ha hold hpeer hstage =>
      subst ha
      refine fun _ _ _ => ⟨fun call _ _ hwait => ?_, fun hended => ?_⟩
      · rw [hstage] at hwait
        cases hwait
        refine ⟨hmoves.length_of_replicateStart, fun hcall => ?_⟩
        -- the request is sent when the bus does not block the peer
        rw [hsent] at hcall
        rcases List.mem_append.1 hcall with hmem | hmem
        · exact absurd (hI.append _ hmem) (lt_irrefl _)
        · obtain ⟨-, m, k', task', heq, htask', hfree⟩ := s.mem_sends hmem
          cases heq
          obtain rfl := Option.some.inj (hold.symm.trans htask')
          exact hpeer ▸ fun hB => hfree (hC.blocked hB)
      · rw [hstage] at hended
        cases hended
  | @ended old call next payload result hold howner hpeer hwait hstage hresult =>
      refine fun i hi howner' => ⟨fun _ _ _ hwait' => ?_, fun hended => ?_⟩
      · rw [hstage] at hwait'
        cases hwait'
      · rw [hstage] at hended
        obtain rfl : result = true := by cases hended; rfl
        obtain ⟨r, hr⟩ := hresult rfl
        rw [hpeer]
        exact ((hC.task old hold i hi (howner ▸ howner')).1 call next payload hwait).2
          (hI.reply _ hr)

/-- **A step of the cluster does not bring a peer of `B` to the node.** -/
theorem CutOff.raft {a : Action ν Cmd} (hC : CutOff n B T id s) (hI : BusInv s)
    (h : busStep M s (.raft a) = some s') : CutOff n B T id s' := by
  obtain ⟨hallows, hstep, hs'⟩ := busStep_raft h
  have hmoves := moves_of_step hstep
  have hsentVotes : s'.votesSent = s.votesSent := by rw [hs']
  have hblocked : s'.blockedPeers = s.blockedPeers := by rw [hs']
  obtain ⟨hid, hframes⟩ := hmoves.appends_cases n
  refine ⟨hblocked ▸ hC.blocked, hC.term_le.trans (hmoves.keepsVote n).1,
    fun call peer hmem payload hpayload => ?_, fun answer hanswer hcandidate hterm => ?_,
    fun payload hel => ?_, hC.id_le.trans hid, fun frame hframe => ?_,
    fun task htask => hC.unreached hI h (hmoves.task_cases n task htask)⟩
  · rw [hsentVotes] at hmem
    obtain ⟨payload', hpayload'⟩ : ∃ payload', s.cluster.voteCalls[call]? = some payload' :=
      ⟨_, List.getElem?_eq_getElem (hI.vote _ hmem)⟩
    have hsame :=
      (TermLog.getElem?_of_isPrefix hmoves.voteCalls_isPrefix hpayload').symm.trans hpayload
    obtain rfl := Option.some.inj hsame
    exact hC.request call peer hmem _ hpayload'
  · rcases hmoves.mem_voteReplies hanswer with hold | ⟨call, rfl, hcall⟩
    · exact hC.answer answer hold hcandidate hterm
    · exact hC.request call answer.voter hallows answer.payload hcall hcandidate hterm
  · rcases hmoves.election_cases n payload hel with hold | ⟨hcandidate, hterm⟩
    · exact hC.election payload hold
    · exact ⟨hcandidate, hterm ▸ Nat.lt_succ_of_le hC.term_le⟩
  · rcases hframes frame hframe with hold | hnext
    · exact hC.frame frame hold
    · exact hnext ▸ hC.id_le

/-- **Nothing does, while the peers stay blocked.** -/
theorem CutOff.step {a : BusAction ν Cmd} (hC : CutOff n B T id s) (hI : BusInv s)
    (hok : KeepsBlocked n B s a) (h : busStep M s a = some s') : CutOff n B T id s' := by
  cases a with
  | raft a => exact hC.raft hI h
  | partition m block unblock =>
      obtain rfl := Option.some.inj h
      refine ⟨?_, hC.term_le, hC.request, hC.answer, hC.election, hC.id_le, hC.frame, hC.task⟩
      intro p hp
      by_cases hm : m = n
      · subst hm
        simp only [Function.update_self, mem_handlePartition]
        exact ⟨fun hfree => hok rfl p hfree hp, .inr (hC.blocked hp)⟩
      · simp only [Function.update_of_ne (Ne.symm hm)]
        exact hC.blocked hp
  | sendVote call peer =>
      simp only [busStep] at h
      split at h
      · cases h
      · next payload hpayload =>
          simp only [Option.ite_none_right_eq_some, Option.some.injEq] at h
          obtain ⟨-, rfl⟩ := h
          refine ⟨hC.blocked, hC.term_le, fun call' peer' hmem payload' hpayload' hcandidate
            hterm => ?_, hC.answer, hC.election, hC.id_le, hC.frame, hC.task⟩
          rcases List.mem_append.1 hmem with hold | hnew
          · exact hC.request call' peer' hold payload' hpayload' hcandidate hterm
          · split at hnew
            · cases hnew
            · next hfree =>
                obtain ⟨rfl, rfl⟩ := Prod.mk.inj (List.mem_singleton.1 hnew)
                obtain rfl := Option.some.inj (hpayload.symm.trans hpayload')
                exact fun hB => hfree (hcandidate ▸ hC.blocked hB)

/-! ### No progress of a minority -/

/-- A node that leads afterwards led before, and has neither committed nor applied anything. -/
def Idles (node node' : RaftNode ν Cmd) : Prop :=
  node'.state = .leader → node.state = .leader ∧ node'.currentTerm = node.currentTerm ∧
    node'.commitIndex = node.commitIndex ∧ node'.applied = node.applied

/-- A node has not come to lead, has not committed anything as a leader, and has not acknowledged
anything. -/
structure Inert (n : ν) (c c' : Cluster ν Cmd) : Prop where
  idles : Idles (c.nodes n).raft (c'.nodes n).raft
  acknowledged : ∀ a ∈ c'.acknowledged, a.1 = n → a ∈ c.acknowledged

omit [DecidableEq ν] in
theorem Idles.refl (node : RaftNode ν Cmd) : Idles node node := fun h => ⟨h, rfl, rfl, rfl⟩

omit [DecidableEq ν] in
theorem Inert.trans {c c' c'' : Cluster ν Cmd} (h : Inert n c c') (h' : Inert n c' c'') :
    Inert n c c'' := by
  refine ⟨fun hleads => ?_, fun a ha hn => h.acknowledged a (h'.acknowledged a ha hn) hn⟩
  obtain ⟨hleads', hterm', hcommit', happlied'⟩ := h'.idles hleads
  obtain ⟨hleads, hterm, hcommit, happlied⟩ := h.idles hleads'
  exact ⟨hleads, hterm'.trans hterm, hcommit'.trans hcommit, happlied'.trans happlied⟩

theorem idles_handleRequestVote (node : RaftNode ν Cmd) (data : RequestVote ν) :
    Idles node (handleRequestVote node data).1 := fun hleads =>
  let ⟨hstate, hterm⟩ := keepsLeader_handleRequestVote node data hleads
  ⟨hstate, hterm, handleRequestVote_frame _ (·.commitIndex) (fun _ _ _ _ => rfl) _,
    handleRequestVote_frame _ (·.applied) (fun _ _ _ _ => rfl) _⟩

omit [DecidableEq ν] in
theorem idles_handleAppendEntries (node : RaftNode ν Cmd) (data : AppendEntries ν Cmd) :
    Idles node (handleAppendEntries node data).1 := by
  intro hleads
  rcases lt_or_ge data.term node.currentTerm with hterm | hterm
  · rw [handleAppendEntries_of_stale node hterm] at hleads ⊢
    exact Idles.refl node hleads
  · -- a node that takes the call follows
    rw [handleAppendEntries_state node hterm] at hleads
    cases hleads

/-- The peers that are left make no majority with the node. -/
theorem exists_mem_of_few (hn : n ∈ M.nodes)
    (hfew : 1 + ((M.peers n).filter (· ∉ B)).length < majority (M.peers n)) {Q : Finset ν}
    (hQ : M.IsMajority Q) : ∃ q ∈ Q, q ≠ n ∧ q ∈ B := by
  by_contra hnone
  push Not at hnone
  have hsub : Q ⊆ insert n ((M.peers n).filter (· ∉ B)).toFinset := by
    intro q hq
    by_cases hqn : q = n
    · exact hqn ▸ Finset.mem_insert_self _ _
    · refine Finset.mem_insert_of_mem (List.mem_toFinset.2 (List.mem_filter.2 ⟨?_, ?_⟩))
      · exact (M.mem_peers hn).2 ⟨hQ.1 q hq, hqn⟩
      · exact decide_eq_true (hnone q hq hqn)
  have hcard := (Finset.card_le_card hsub).trans (Finset.card_insert_le _ _)
  have hlist := List.toFinset_card_le ((M.peers n).filter (· ∉ B))
  have hpeers := M.length_peers hn
  have hmajority := hQ.2
  simp only [majority] at hfew
  omega

/-- **A node that is cut off does not win.** -/
theorem CutOff.not_won (hC : CutOff n B T id s) (hE : ElectionInv M s.cluster)
    (hcut : ∀ Q, M.IsMajority Q → ∃ q ∈ Q, q ≠ n ∧ q ∈ B) {replies : List (ν × VoteReply)}
    {payload : RequestVote ν} (hel : (s.cluster.nodes n).election = some payload)
    (hnodup : (replies.map Prod.fst).Nodup)
    (hreplies : ∀ r ∈ replies, r.1 ∈ M.peers n ∧ ⟨payload, r.1, r.2⟩ ∈ s.cluster.voteReplies) :
    ¬ majority (M.peers n) ≤ countVotes (replies.map Prod.snd) := by
  intro hwon
  obtain ⟨Q, hQ, hgranted⟩ := won_of_tally hE hel hnodup hreplies hwon
  obtain ⟨q, hq, hqn, hqB⟩ := hcut Q hQ
  rcases hgranted q hq with ⟨heq, -⟩ | ⟨answer, hanswer, rfl, hcandidate, hterm, -⟩
  · exact hqn heq
  · exact hC.answer answer hanswer hcandidate (hterm ▸ (hC.election payload hel).2) hqB

/-- **None of its calls of `append_entry` gets enough successes.** -/
theorem CutOff.not_majority (hC : CutOff n B T id s) (hF : FrameInv M s.cluster)
    (hL : TaskListInv M n (s.cluster.nodes n)) (hn : n ∈ M.nodes)
    (hcut : ∀ Q, M.IsMajority Q → ∃ q ∈ Q, q ≠ n ∧ q ∈ B) {i k : ℕ} {frame : AppendFrame Cmd}
    (hframe : (s.cluster.nodes n).appends.find? (·.id = i) = some frame)
    (hk : replicateLog ((s.cluster.nodes n).outcomes i) = some k) :
    ¬ majority (M.peers n) ≤ k := by
  intro hmajority
  have hid : id ≤ i := by
    have hi : frame.id = i := by simpa using List.find?_some hframe
    exact hi ▸ hC.frame frame (List.mem_of_find?_eq_some hframe)
  obtain ⟨Q, hQ, hdone⟩ := isMajority_of_successes hn hL
    (fun task htask => (hF.task n task htask).peer) hk hmajority
  obtain ⟨q, hq, hqn, hqB⟩ := hcut Q hQ
  rcases hdone q hq with heq | ⟨task, htask, howner, hstage, rfl⟩
  · exact hqn heq
  · exact (hC.task task htask i hid howner).2 hstage hqB

/-- **A step leaves a node that is cut off where it is.** -/
theorem CutOff.inert (hC : CutOff n B T id s) (hE : ElectionInv M s.cluster)
    (hF : FrameInv M s.cluster) (hL : TaskListInv M n (s.cluster.nodes n)) (hn : n ∈ M.nodes)
    (hcut : ∀ Q, M.IsMajority Q → ∃ q ∈ Q, q ≠ n ∧ q ∈ B) {a : Action ν Cmd}
    {c : Cluster ν Cmd} (h : Moves M s.cluster a c) : Inert n s.cluster c := by
  have key : ∀ {m : ν} {p : Process ν Cmd}, (m = n → Idles (s.cluster.nodes m).raft p.raft) →
      Idles (s.cluster.nodes n).raft ((s.cluster.set m p).nodes n).raft := fun hp =>
    Cluster.set_forall (P := fun m p => m = n → Idles (s.cluster.nodes m).raft p.raft)
      (fun _ _ => Idles.refl _) hp n rfl
  have hkeep : ∀ a ∈ s.cluster.acknowledged, a.1 = n → a ∈ s.cluster.acknowledged :=
    fun _ ha _ => ha
  cases h with
  | electionTimeout => exact ⟨key fun _ hleads => (by cases hleads), hkeep⟩
  | requestVote => exact ⟨key fun _ => idles_handleRequestVote _ _, hkeep⟩
  | electionWon hel hnodup hreplies hwon =>
      refine ⟨key fun hm => ?_, hkeep⟩
      subst hm
      exact absurd hwon (hC.not_won hE hcut hel hnodup hreplies)
  | electionLost => exact ⟨key fun _ => Idles.refl _, hkeep⟩
  | appendEntry => exact ⟨key fun _ hleads => ⟨hleads, rfl, rfl, rfl⟩, hkeep⟩
  | heartbeat => exact ⟨key fun _ => Idles.refl _, hkeep⟩
  | heartbeatExit => exact ⟨key fun _ => Idles.refl _, hkeep⟩
  | replicateStart => exact ⟨key fun _ => Idles.refl _, hkeep⟩
  | appendEntries => exact ⟨key fun _ => idles_handleAppendEntries _ _, hkeep⟩
  | replicateEnd =>
      refine ⟨key fun _ hleads => ⟨(replicateReply_state ..).symm.trans hleads,
        replicateReply_currentTerm .., ?_, ?_⟩, hkeep⟩
      · exact replicateReply_frame _ _ _ _ _ (·.commitIndex) fun _ _ _ => rfl
      · exact replicateReply_frame _ _ _ _ _ (·.applied) fun _ _ _ => rfl
  | @appendEnd m i frame hframe =>
      have hnone : m = n → concludeAppend (M.peers m) (s.cluster.nodes m).raft frame.entryIndex
          (replicateLog ((s.cluster.nodes m).outcomes i)) = ((s.cluster.nodes m).raft, false) := by
        intro hm
        subst hm
        cases hk : replicateLog ((s.cluster.nodes m).outcomes i) with
        | none => rfl
        | some k => exact if_neg (hC.not_majority hF hL hn hcut hframe hk)
      refine ⟨key fun hm => ?_, fun a ha han => ?_⟩
      · rw [hnone hm]
        exact Idles.refl _
      · rcases List.mem_append.1 ha with hold | hnew
        · exact hold
        · split at hnew
          · next htrue =>
              obtain rfl := List.mem_singleton.1 hnew
              rw [hnone han] at htrue
              cases htrue
          · cases hnew

/-- **A node that has blocked too many peers makes no progress.**  It has blocked the peers of `B`
at a time when it had no election and no call of `append_entry` under way, and with the other ones
it is no majority.  As long as the peers of `B` stay blocked, whatever else happens, the node does
not come to lead, commits and applies nothing as a leader, and acknowledges nothing. -/
theorem minorityIsInert (h : Run (busStep M) anyAction (unpartitioned callback) s)
    (hn : n ∈ M.nodes) (helection : (s.cluster.nodes n).election = none)
    (happends : (s.cluster.nodes n).appends = []) (hblocked : B ⊆ s.blockedPeers n)
    (hfew : 1 + ((M.peers n).filter (· ∉ B)).length < majority (M.peers n))
    (hrun : Run (busStep M) (KeepsBlocked n B) s s') : Inert n s.cluster s'.cluster := by
  have hcluster : Run (Raft.step M) anyAction (initial callback) s.cluster :=
    cluster_run (h.mono fun _ a _ => by cases a <;> trivial)
  have hcut : ∀ Q, M.IsMajority Q → ∃ q ∈ Q, q ≠ n ∧ q ∈ B := fun _ => exists_mem_of_few hn hfew
  have hI := busInv_run h
  have hL := taskListInv_run hcluster
  have hC := cutOff_of_idle hI (voteInv_run hcluster) (hL n) hblocked helection happends
  refine (hrun.invariant (I := fun s₁ => BusInv s₁ ∧ ElectionInv M s₁.cluster ∧
      FrameInv M s₁.cluster ∧ (∀ m, TaskListInv M m (s₁.cluster.nodes m)) ∧
      CutOff n B _ _ s₁ ∧ Inert n s.cluster s₁.cluster)
    (fun s₁ a s₂ hI₁ hok hstep => ?_)
    ⟨hI, electionInv_run hcluster, frameInv_run hcluster, hL, hC, ⟨Idles.refl _,
      fun _ ha _ => ha⟩⟩).2.2.2.2.2
  obtain ⟨hI₁, hE, hF, hL₁, hC₁, hinert⟩ := hI₁
  refine ⟨hI₁.step hstep, ?_⟩
  have hC₂ := hC₁.step hI₁ hok hstep
  cases a with
  | partition m block unblock =>
      obtain rfl := Option.some.inj hstep
      exact ⟨hE, hF, hL₁, hC₂, hinert⟩
  | sendVote call peer =>
      simp only [busStep] at hstep
      split at hstep
      · cases hstep
      · simp only [Option.ite_none_right_eq_some, Option.some.injEq] at hstep
        obtain ⟨-, rfl⟩ := hstep
        exact ⟨hE, hF, hL₁, hC₂, hinert⟩
  | raft a =>
      have hmoves := moves_of_step (busStep_raft hstep).2.1
      exact ⟨hE.step hmoves, hF.step hE hmoves, TaskListInv.step hL₁ hF hmoves, hC₂,
        hinert.trans (hC₁.inert hE hF (hL₁ n) hn hcut hmoves)⟩

/-- Node 0 is elected by node 1 and then blocks both of its peers. -/
def cutLeader : List (BusAction (Fin 3) ℕ) :=
  [.raft (.electionTimeout 0), .sendVote 0 1, .sendVote 0 2, .raft (.requestVote 0 1),
    .raft (.electionResult 0 [(1, ⟨1, true⟩)]), .partition 0 [1, 2] []]

/-- It appends a command, sends it to nobody, and waits until the timeout has passed. -/
def appendInVain : List (BusAction (Fin 3) ℕ) :=
  [.raft (.appendEntry 0 7), .raft (.replicateStart 0 0), .partition 0 [1] [0],
    .raft (.replicateEnd 0 0 none), .raft (.replicateStart 0 1), .raft (.appendEnd 0 0)]

theorem minorityIsInert_leader : ∃ s s' : Partitioned (Fin 3) ℕ,
    Run (busStep trio) anyAction (unpartitioned returning) s ∧
    Run (busStep trio) (KeepsBlocked 0 {1, 2}) s s' ∧
    (s'.cluster.nodes 0).raft.state = .leader ∧ (s'.cluster.nodes 0).raft.log.length = 1 ∧
    Inert 0 s.cluster s'.cluster := by
  obtain ⟨s, hs, helection, happends, hblocked, hvain⟩ := Run.exists_of_exec (busStep trio)
    anyAction (unpartitioned returning) cutLeader
    (fun s => (s.cluster.nodes 0).election = none ∧ (s.cluster.nodes 0).appends = [] ∧
      {1, 2} ⊆ s.blockedPeers 0 ∧
      ((exec (busStep trio) (KeepsBlocked 0 {1, 2}) s appendInVain).any fun s' =>
        decide ((s'.cluster.nodes 0).raft.state = .leader ∧
          (s'.cluster.nodes 0).raft.log.length = 1)) = true) (by decide)
  obtain ⟨s', hs', hlast⟩ := (Option.any_eq_true _ _).1 hvain
  obtain ⟨hleads, hlog⟩ := of_decide_eq_true hlast
  have hrun := Run.of_exec appendInVain hs'
  exact ⟨s, s', hs, hrun, hleads, hlog,
    minorityIsInert hs (by decide) helection happends hblocked (by decide) hrun⟩

/-! ### Progress of a majority -/

/-- The nodes of `Q` go on by themselves, with nothing but messages sent after `s₀`, and no bus is
changed. -/
def GoesOn (M : Membership ν) (Q : Finset ν) (s₀ s : Partitioned ν Cmd) : BusAction ν Cmd → Prop
  | .partition _ _ _ => False
  | .sendVote call _ => ∀ payload ∈ s.cluster.voteCalls[call]?, payload.candidateId ∈ Q
  | .raft a => MovedBy M Q s₀.cluster s.cluster a

/-- A state of the cluster over its buses that has come from `s₀` without a change to the buses: a
new request between nodes of `Q` has been sent, or waits for its task. -/
structure Lifted (M : Membership ν) (Q : Finset ν) (s₀ : Partitioned ν Cmd) (c : Cluster ν Cmd)
    (s : Partitioned ν Cmd) : Prop where
  cluster : s.cluster = c
  blocked : s.blockedPeers = s₀.blockedPeers
  vote : ∀ call payload, s₀.cluster.voteCalls.length ≤ call → c.voteCalls[call]? = some payload →
    payload.candidateId ∈ Q → ∀ q ∈ Q, q ∈ M.peers payload.candidateId →
      (call, q) ∈ s.voteTasks ∨ (call, q) ∈ s.votesSent
  append : ∀ call r, s₀.cluster.appendCalls.length ≤ call → c.appendCalls[call]? = some r →
    r.payload.leaderId ∈ Q → r.peer ∈ Q → call ∈ s.appendsSent

omit [DecidableEq ν] in
theorem lifted_refl (M : Membership ν) (Q : Finset ν) (s : Partitioned ν Cmd) :
    Lifted M Q s s.cluster s where
  cluster := rfl
  blocked := rfl
  vote := fun _ _ hge hcall =>
    absurd (List.getElem?_eq_some_iff.1 hcall).1 (not_lt.2 hge)
  append := fun _ _ hge hcall =>
    absurd (List.getElem?_eq_some_iff.1 hcall).1 (not_lt.2 hge)

variable {Q : Finset ν} {s₀ : Partitioned ν Cmd} {c c' : Cluster ν Cmd}

/-- A task of a candidate of `Q` can run, and sends its request if the peer is in `Q`. -/
theorem Lifted.exists_sendVote (hF : Lifted M Q s₀ c s)
    (hlinks : ∀ n ∈ Q, ∀ q ∈ Q, q ∉ s₀.blockedPeers n) {call : ℕ} {peer : ν}
    {payload : RequestVote ν} (hcall : c.voteCalls[call]? = some payload)
    (hcandidate : payload.candidateId ∈ Q) (htask : (call, peer) ∈ s.voteTasks) :
    ∃ s', GoesOn M Q s₀ s (.sendVote call peer) ∧ busStep M s (.sendVote call peer) = some s' ∧
      Lifted M Q s₀ c s' ∧ s'.voteTasks.length < s.voteTasks.length ∧
      (peer ∈ Q → (call, peer) ∈ s'.votesSent) := by
  have hcall' : s.cluster.voteCalls[call]? = some payload := by rw [hF.cluster, hcall]
  have hsend : peer ∈ Q → (if peer ∈ s.blockedPeers payload.candidateId then []
      else [(call, peer)]) = [(call, peer)] := fun hpeer =>
    if_neg (hF.blocked ▸ hlinks _ hcandidate peer hpeer)
  have hstep : busStep M s (.sendVote call peer) = some { s with
      voteTasks := s.voteTasks.erase (call, peer)
      votesSent := s.votesSent ++
        if peer ∈ s.blockedPeers payload.candidateId then [] else [(call, peer)] } := by
    simp only [busStep, hcall']
    exact if_pos htask
  refine ⟨_, fun payload' hpayload' => ?_, hstep, ⟨hF.cluster, hF.blocked, ?_, hF.append⟩, ?_,
    fun hpeer => ?_⟩
  · rw [hcall'] at hpayload'
    exact Option.some.inj hpayload' ▸ hcandidate
  · intro call' payload' hge hcall'' hcandidate' q hq hpeer
    by_cases heq : (call', q) = (call, peer)
    · obtain ⟨rfl, rfl⟩ := Prod.mk.inj heq
      refine .inr (List.mem_append_right _ ?_)
      rw [hsend hq]
      exact List.mem_singleton_self _
    · rcases hF.vote call' payload' hge hcall'' hcandidate' q hq hpeer with hwait | hsent
      · exact .inl ((List.mem_erase_of_ne heq).2 hwait)
      · exact .inr (List.mem_append_left _ hsent)
  · have hlength := List.length_erase_of_mem htask
    have hpos := List.length_pos_of_mem htask
    simp only [hlength]
    omega
  · refine List.mem_append_right _ ?_
    rw [hsend hpeer]
    exact List.mem_singleton_self _

/-- The tasks that `_start_election` waits for can all run. -/
theorem Lifted.exists_voted (hF : Lifted M Q s₀ c s)
    (hlinks : ∀ n ∈ Q, ∀ q ∈ Q, q ∉ s₀.blockedPeers n) (hn : n ∈ Q)
    (replies : List (ν × VoteReply)) :
    ∃ s', Run (busStep M) (GoesOn M Q s₀) s s' ∧ Lifted M Q s₀ c s' ∧
      s'.Allows (.electionResult n replies) := by
  refine Run.exists_of_work (I := Lifted M Q s₀ c) (fun s => s.voteTasks.length)
    (fun s₁ hF₁ hgoal => ?_) hF
  obtain ⟨⟨call, peer⟩, htask, payload, hcall, hcandidate⟩ : ∃ task ∈ s₁.voteTasks,
      ∃ payload ∈ s₁.cluster.voteCalls[task.1]?, payload.candidateId = n := by
    by_contra hnone
    push Not at hnone
    exact hgoal ⟨hF₁, hnone⟩
  rw [hF₁.cluster] at hcall
  obtain ⟨s₂, hok, hstep, hF₂, hless, -⟩ :=
    hF₁.exists_sendVote hlinks hcall (hcandidate ▸ hn) htask
  exact ⟨_, s₂, hok, hstep, hF₂, hless⟩

/-- A step of the nodes of `Q` is made over the buses when they allow it. -/
theorem Lifted.step {a : Action ν Cmd} (hF : Lifted M Q s₀ c s)
    (hlinks : ∀ n ∈ Q, ∀ q ∈ Q, q ∉ s₀.blockedPeers n) (hallows : s.Allows a)
    (hok : MovedBy M Q s₀.cluster c a) (hstep : Raft.step M c a = some c') :
    ∃ s', Run (busStep M) (GoesOn M Q s₀) s s' ∧ Lifted M Q s₀ c' s' := by
  obtain rfl := hF.cluster
  have hmoves := moves_of_step hstep
  have hlift : busStep M s (.raft a) = some { s with
      cluster := c'
      voteTasks := s.voteTasks ++ s.creates M a
      appendsSent := s.appendsSent ++ s.sends a } := by
    rw [busStep, if_pos hallows, hstep]
    rfl
  refine ⟨_, .single (a := .raft a) hok hlift, ⟨rfl, hF.blocked, ?_, ?_⟩⟩
  · intro call payload hge hcall hcandidate q hq hpeer
    rcases lt_or_ge call s.cluster.voteCalls.length with hlt | hnew
    · have hold := (TermLog.getElem?_of_isPrefix hmoves.voteCalls_isPrefix
        (List.getElem?_eq_getElem hlt)).symm.trans hcall
      obtain rfl := Option.some.inj hold
      rcases hF.vote call _ hge (List.getElem?_eq_getElem hlt) hcandidate q hq hpeer with hw | hs
      · exact .inl (List.mem_append_left _ hw)
      · exact .inr hs
    · -- the election that begins has a task for every peer
      left
      refine List.mem_append_right _ ?_
      cases hmoves
      case electionTimeout m hm hidle hstate =>
        obtain rfl : call = s.cluster.voteCalls.length := by
          have hlt := (List.getElem?_eq_some_iff.1 hcall).1
          rw [List.length_append, List.length_singleton] at hlt
          omega
        rw [List.getElem?_concat_length] at hcall
        obtain rfl := Option.some.inj hcall
        exact List.mem_map.2 ⟨q, hpeer, rfl⟩
      all_goals exact absurd (List.getElem?_eq_some_iff.1 hcall).1 (not_lt.2 hnew)
  · intro call r hge hcall hleader hpeer
    rcases lt_or_ge call s.cluster.appendCalls.length with hlt | hnew
    · have hpre := hmoves.appendCalls_prefix
      have hold := (TermLog.getElem?_of_isPrefix hpre (List.getElem?_eq_getElem hlt)).symm.trans
        hcall
      obtain rfl := Option.some.inj hold
      exact List.mem_append_left _
        (hF.append call _ hge (List.getElem?_eq_getElem hlt) hleader hpeer)
    · -- the request that is made goes to a peer that is not blocked
      refine List.mem_append_right _ ?_
      cases hmoves
      case replicateStart m k owner peer htask =>
        obtain rfl : call = s.cluster.appendCalls.length := by
          have hlt := (List.getElem?_eq_some_iff.1 hcall).1
          rw [List.length_append, List.length_singleton] at hlt
          omega
        rw [List.getElem?_concat_length] at hcall
        obtain rfl := Option.some.inj hcall
        simp only [Partitioned.sends, htask]
        rw [if_neg (hF.blocked ▸ hlinks m hleader peer hpeer)]
        exact List.mem_singleton_self _
      all_goals exact absurd (List.getElem?_eq_some_iff.1 hcall).1 (not_lt.2 hnew)

/-- **What nodes of `Q` can do by themselves, they can do over their buses** when they do not block
each other. -/
theorem Lifted.run (hlinks : ∀ n ∈ Q, ∀ q ∈ Q, q ∉ s₀.blockedPeers n)
    (h : Reaches M Q s₀.cluster c) :
    ∃ s, Run (busStep M) (GoesOn M Q s₀) s₀ s ∧ Lifted M Q s₀ c s := by
  induction h with
  | refl => exact ⟨s₀, .refl _, lifted_refl M Q s₀⟩
  | @tail c₁ c₂ a _ hok hstep ih =>
      obtain ⟨s₁, hrun, hF⟩ := ih
      have hmoves := moves_of_step hstep
      obtain ⟨s₂, hready, hF₂, hallows⟩ : ∃ s₂, Run (busStep M) (GoesOn M Q s₀) s₁ s₂ ∧
          Lifted M Q s₀ c₁ s₂ ∧ s₂.Allows a := by
        obtain ⟨-, hactor, hfresh⟩ := hok
        cases hmoves
        case requestVote call voter payload hcall hvoter =>
          have hq := hactor voter rfl
          have hcandidate := hfresh.2 payload hcall
          rcases hF.vote call payload hfresh.1 hcall hcandidate voter hq hvoter with hwait | hsent
          · -- the task has not run yet
            obtain ⟨s₂, hsend, hstep₂, hF₂, -, hsent⟩ :=
              hF.exists_sendVote hlinks hcall hcandidate hwait
            exact ⟨s₂, .single hsend hstep₂, hF₂, hsent hq⟩
          · exact ⟨s₁, .refl _, hF, hsent⟩
        case electionWon m replies payload hel hnodup hreplies hwon =>
          exact hF.exists_voted hlinks (hactor m rfl) replies
        case electionLost m replies payload hel hlost =>
          exact hF.exists_voted hlinks (hactor m rfl) replies
        case appendEntries call peer payload hcall =>
          have hpeer : peer ∈ Q := hactor peer (by rw [actor, hcall]; rfl)
          exact ⟨s₁, .refl _, hF,
            hF.append call _ hfresh.1 hcall (hfresh.2 ⟨peer, payload⟩ hcall) hpeer⟩
        all_goals exact ⟨s₁, .refl _, hF, trivial⟩
      obtain ⟨s', hlast, hF'⟩ := hF₂.step hlinks hallows hok hstep
      exact ⟨s', (hrun.trans hready).trans hlast, hF'⟩

/-- **A majority whose nodes do not block each other can always commit another command**, whatever
the other nodes have blocked and without any change to the buses. -/
theorem majorityGoesOn (hreturns : ∀ m calls command, callback m calls command = true)
    (h : Run (busStep M) (Lifts (InTerm M)) (unpartitioned callback) s) (hQ : M.IsMajority Q)
    (hlinks : ∀ n ∈ Q, ∀ q ∈ Q, q ∉ s.blockedPeers n) (command : Cmd) :
    ∃ s', Run (busStep M) (GoesOn M Q s) s s' ∧
      ∃ n ∈ Q, Commits n command s.cluster s'.cluster := by
  obtain ⟨s₁, hled, n, hn, hL⟩ := exists_led (cluster_run h) hQ
  obtain ⟨c, hcommit, hC⟩ := exists_committed hreturns hQ hL hn command
  obtain ⟨s', hrun, hF⟩ := Lifted.run hlinks (hled.trans hcommit)
  refine ⟨s', hrun, n, hn, ?_⟩
  obtain ⟨acknowledged, i, hpre, hlast⟩ := hC.acknowledged
  rw [hF.cluster]
  exact ⟨hC.leads, acknowledged, i, (acknowledged_isPrefix hled).trans hpre, hlast⟩

/-- The other two nodes of the cluster go on, while node 0 still leads. -/
theorem majorityGoesOn_withoutLeader : ∃ s s' : Partitioned (Fin 3) ℕ,
    Run (busStep trio) (Lifts (InTerm trio)) (unpartitioned returning) s ∧
    (s.cluster.nodes 0).raft.state = .leader ∧
    Run (busStep trio) (GoesOn trio {1, 2} s) s s' ∧
    ∃ n ∈ ({1, 2} : Finset (Fin 3)), Commits n 7 s.cluster s'.cluster := by
  obtain ⟨s, hs, hleads, hlinks⟩ := Run.exists_of_exec (busStep trio) (Lifts (InTerm trio))
    (unpartitioned returning) cutLeader
    (fun s => (s.cluster.nodes 0).raft.state = .leader ∧
      ∀ n ∈ ({1, 2} : Finset (Fin 3)), ∀ q ∈ ({1, 2} : Finset (Fin 3)), q ∉ s.blockedPeers n)
    (by decide)
  obtain ⟨s', hs', hcommits⟩ := majorityGoesOn (fun _ _ _ => rfl) hs
    (⟨by decide, by decide⟩ : trio.IsMajority {1, 2}) hlinks 7
  exact ⟨s, s', hs, hleads, hs', hcommits⟩

end Raft
