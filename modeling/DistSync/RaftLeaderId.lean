/-
**Whom a node takes for the leader.**

The field `leader_id` is where `_proxy_to_leader` sends the calls that a follower cannot serve.  It
is written in two places, `_become_leader` and `handle_append_entries`, and `state` in two more.
Both of the former write `state` and `leader_id` together, and a new candidacy starts from a node
that does not lead and leaves `leader_id` alone.  `handle_request_vote` is the exception: a leader
that hears of a higher term becomes a follower there and keeps its own name in `leader_id`, so that
the lock requests it cannot serve any more go back to itself (`Raft.namesLeader_fails`).

In the runs in which no leader is deposed by a vote request (`Raft.NotDeposed`) a node that has its
own name in `leader_id` leads (`Raft.namesLeader`), and what a proxy sends goes to another node.

Main definitions:

* `Raft.NamesLeader` — a node that takes itself for the leader leads;
* `Raft.ForwardsElsewhere` — a proxy of a node that does not lead sends to another node;
* `Raft.NotDeposed` — a vote request of a higher term is not handled by a leader.

Main results:

* `Raft.forwardsElsewhere_iff` — the second property is the first one, seen by the callers;
* `Raft.namesLeader`, `Raft.namesLeader_fails`.
-/

import DistSync.LockProxy
import DistSync.RaftLogMatching

set_option relaxedAutoImplicit false
set_option autoImplicit false

namespace Raft

open Runs LockManager

variable {ν Cmd : Type} [DecidableEq ν] {M : Membership ν} {s s' : Cluster ν Cmd}
  {callback : ν → ApplyCallback Cmd}

/-! ### Self-references and forwarded calls -/

/-- A node that takes itself for the leader leads. -/
def NamesLeader (s : Cluster ν Cmd) : Prop :=
  ∀ n, (s.nodes n).raft.leaderId = some n → (s.nodes n).raft.state = .leader

/-- What the handlers of a forwarded call find at the nodes of the cluster. -/
def Finds (s : Cluster ν Cmd) (call : Forwarding ν) : Prop :=
  ∀ n, (call.leads n = true ↔ (s.nodes n).raft.state = .leader) ∧
    call.leaderId n = (s.nodes n).raft.leaderId

/-- The handler that makes a move. -/
def handlerOf : ProxyAction ν → Option ℕ
  | .elect _ _ _ => none
  | .deliver i | .lose i | .handle i _ _ | .poll i | .append i | .refuse i | .answer i _
  | .returned i | .failed i => some i

/-- **What a node that does not lead sends, in `_proxy_to_leader`, goes to another node**, whichever
handler of whichever call sends it, in its first attempt or in its second one. -/
def ForwardsElsewhere (s : Cluster ν Cmd) : Prop :=
  ∀ (payload : Payload) (call call' : Forwarding ν) (a : ProxyAction ν) (i : ℕ)
    (handler message : Handler ν), Finds s call → Forwarding.step payload call a = some call' →
    handlerOf a = some i → call.handlers[i]? = some handler →
    message ∈ call'.handlers.drop call.handlers.length →
    (s.nodes handler.node).raft.state ≠ .leader → message.node ≠ handler.node

omit [DecidableEq ν] in
/-- A handler that goes on without sending adds nothing to the list. -/
theorem drop_setPhase (call : Forwarding ν) (i : ℕ) (node : ν) (phase : Phase) :
    (call.setPhase i node phase).handlers.drop call.handlers.length = [] := by
  rw [Forwarding.setPhase, List.drop_eq_nil_iff, List.length_set]

omit [DecidableEq ν] in
/-- A message that is sent is the one addition to the list. -/
theorem drop_send (call : Forwarding ν) (i : ℕ) (node target : ν) (phase : ℕ → Phase) :
    (call.send i node target phase).handlers.drop call.handlers.length = [⟨target, .sent⟩] := by
  have hnil : (call.handlers.set i ⟨node, phase call.handlers.length⟩).drop call.handlers.length =
      [] := List.drop_eq_nil_iff.2 (List.length_set ..).le
  rw [Forwarding.send, List.drop_append_of_le_length (List.length_set ..).ge, hnil]
  rfl

/-- **What is sent goes to the node that the sender takes for the leader.** -/
theorem leaderId_of_message {payload : Payload} {call call' : Forwarding ν} {a : ProxyAction ν}
    {i : ℕ} {handler message : Handler ν} (h : Forwarding.step payload call a = some call')
    (ha : handlerOf a = some i) (hi : call.handlers[i]? = some handler)
    (hmessage : message ∈ call'.handlers.drop call.handlers.length) :
    call.leaderId handler.node = some message.node := by
  -- a move that only changes the phase of the handler sends nothing
  have quiet : ∀ {j : ℕ} {node : ν} {phase : Phase},
      message ∉ (call.setPhase j node phase).handlers.drop call.handlers.length := by
    intro j node phase
    rw [drop_setPhase]
    exact List.not_mem_nil
  have sent : ∀ {j : ℕ} {node target : ν} {phase : Phase} {phase' : ℕ → Phase},
      handlerOf a = some j → call.handlers[j]? = some ⟨node, phase⟩ →
      call.leaderId node = some target →
      message ∈ (call.send j node target phase').handlers.drop call.handlers.length →
      call.leaderId handler.node = some message.node := by
    intro j node target phase phase' hj hnode htarget hmessage
    obtain rfl := Option.some.inj (hj.symm.trans ha)
    obtain rfl := Option.some.inj (hnode.symm.trans hi)
    rw [drop_send] at hmessage
    rw [List.mem_singleton.1 hmessage]
    exact htarget
  cases Forwarding.moves_of_step h with
  | elect => cases ha
  | send hnode hleader => exact sent rfl hnode hleader hmessage
  | retry hnode hleader => exact sent rfl hnode hleader hmessage
  | deliver | lose | mint | proxy | giveUp | pollAgain | append | refuse | answer | returned
  | noLeader | failedTwice => exact absurd hmessage quiet

/-- A call to a node, seen when `_proxy_to_leader` is about to read `leader_id`. -/
def proxied (s : Cluster ν Cmd) (n : ν) : Forwarding ν :=
  ⟨fun m => decide ((s.nodes m).raft.state = .leader), fun m => (s.nodes m).raft.leaderId,
    [⟨n, .polling 10⟩], []⟩

/-- **A proxy sends elsewhere exactly when no node that does not lead has its own name in
`leader_id`.** -/
theorem forwardsElsewhere_iff : ForwardsElsewhere s ↔ NamesLeader s := by
  constructor
  · intro hforwards n hself
    by_contra hstate
    have hstep : Forwarding.step ⟨"", "", .null, .null⟩ (proxied s n) (.poll 0) =
        some ((proxied s n).send 0 n n .first) := by
      simp [Forwarding.step, proxied, hself]
    have hfinds : Finds s (proxied s n) := fun m => ⟨by simp [proxied], rfl⟩
    refine hforwards _ _ _ _ 0 ⟨n, .polling 10⟩ ⟨n, .sent⟩ hfinds hstep rfl rfl ?_ hstate rfl
    rw [drop_send]
    exact List.mem_singleton_self _
  · intro hnames payload call call' a i handler message hfinds hstep ha hi hmessage hstate heq
    have htarget := leaderId_of_message hstep ha hi hmessage
    rw [(hfinds handler.node).2, heq] at htarget
    exact hstate (hnames handler.node htarget)

/-! ### Depositions -/

/-- No leader handles a vote request of a higher term than its own. -/
def NotDeposed (s : Cluster ν Cmd) : Action ν Cmd → Prop
  | .requestVote call voter =>
      ∀ payload ∈ s.voteCalls[call]?, (s.nodes voter).raft.state = .leader →
        payload.term ≤ (s.nodes voter).raft.currentTerm
  | _ => True

instance decidableNotDeposed (s : Cluster ν Cmd) : DecidablePred (NotDeposed s)
  | .requestVote _ _ => inferInstanceAs (Decidable (∀ _ ∈ _, _ → _))
  | .electionTimeout _ | .electionResult _ _ | .appendEntry _ _ | .heartbeat _
  | .replicateStart _ _ | .appendEntries _ | .replicateEnd _ _ _ | .appendEnd _ _ => .isTrue trivial

/-- A node has its own name in `leader_id` exactly while it leads. -/
def KnowsItself (n : ν) (node : RaftNode ν Cmd) : Prop :=
  node.leaderId = some n ↔ node.state = .leader

omit [DecidableEq ν] in
theorem KnowsItself.of_eq {n : ν} {node node' : RaftNode ν Cmd} (h : KnowsItself n node)
    (hid : node'.leaderId = node.leaderId) (hstate : node'.state = node.state) :
    KnowsItself n node' := by
  rw [KnowsItself, hid, hstate]
  exact h

/-- **A vote request leaves `leader_id` as it is.** -/
theorem handleRequestVote_leaderId (node : RaftNode ν Cmd) (data : RequestVote ν) :
    (handleRequestVote node data).1.leaderId = node.leaderId :=
  handleRequestVote_frame node (·.leaderId) (fun _ _ _ _ => rfl) data

omit [DecidableEq ν] in
/-- **An AppendEntries call writes both fields**, unless it is stale. -/
theorem knowsItself_handleAppendEntries {n : ν} {node : RaftNode ν Cmd}
    {data : AppendEntries ν Cmd} (h : KnowsItself n node) (hother : data.leaderId ≠ n) :
    KnowsItself n (handleAppendEntries node data).1 := by
  rcases lt_or_ge data.term node.currentTerm with hterm | hterm
  · rwa [handleAppendEntries_of_stale node hterm]
  · have hid : (handleAppendEntries node data).1.leaderId = some data.leaderId := by
      cases hprev : prevMatches node.log data.prevLogIndex data.prevLogTerm with
      | false => rw [handleAppendEntries_of_mismatch node hterm hprev]; rfl
      | true =>
          rw [handleAppendEntries_of_match node hterm hprev,
            applyCommitted_frame _ (·.leaderId) fun _ _ _ => rfl]
          rfl
    rw [KnowsItself, hid, handleAppendEntries_state node hterm]
    exact ⟨fun heq => absurd (Option.some.inj heq) hother, nofun⟩

/-- **Any other step keeps the two fields in agreement.** -/
theorem KnowsItself.step {a : Action ν Cmd} (hI : ∀ n, KnowsItself n (s.nodes n).raft)
    (hF : FrameInv M s) (hok : NotDeposed s a) (h : Moves M s a s') (m : ν) :
    KnowsItself m (s'.nodes m).raft := by
  have key : ∀ {n : ν} {p : Process ν Cmd}, KnowsItself n p.raft →
      KnowsItself m ((s.set n p).nodes m).raft := fun hp =>
    Cluster.set_forall (P := fun n p => KnowsItself n p.raft) hI hp m
  cases h with
  | @electionTimeout n hn hstate hidle =>
      -- the node does not lead, so it knows somebody else, and keeps it that way
      refine key ⟨fun hself => ?_, nofun⟩
      exact absurd ((hI n).1 hself) hstate
  | @requestVote call voter payload hcall hvoter =>
      refine key ?_
      rcases lt_or_ge (s.nodes voter).raft.currentTerm payload.term with hterm | hterm
      · have hstate : (s.nodes voter).raft.state ≠ .leader := fun hleader =>
          absurd (hok payload hcall hleader) (not_le.2 hterm)
        rw [KnowsItself, handleRequestVote_leaderId, handleRequestVote_state, if_pos hterm]
        exact ⟨fun hself => absurd ((hI voter).1 hself) hstate, nofun⟩
      · refine (hI voter).of_eq (handleRequestVote_leaderId _ payload) ?_
        rw [handleRequestVote_state, if_neg (not_lt.2 hterm)]
  | electionWon => exact key ⟨fun _ => rfl, fun _ => rfl⟩
  | @electionLost n => exact key (hI n)
  | @appendEntry n => exact key (hI n)
  | @heartbeat n => exact key (hI n)
  | @heartbeatExit n => exact key (hI n)
  | @replicateStart n => exact key (hI n)
  | @appendEntries call peer payload hcall =>
      obtain ⟨hsender, hpeer⟩ := hF.call _ (List.mem_of_getElem? hcall)
      have hother := ((M.mem_peers hsender).1 hpeer).2
      exact key (knowsItself_handleAppendEntries (hI peer) hother.symm)
  | @replicateEnd n =>
      exact key ((hI n).of_eq (replicateReply_frame _ _ _ _ _ (·.leaderId) fun _ _ _ => rfl)
        (replicateReply_state _ _ _ _ _))
  | @appendEnd n =>
      exact key ((hI n).of_eq (concludeAppend_frame _ (·.leaderId) (fun _ _ _ _ => rfl) _ _ _)
        (concludeAppend_state _ _ _ _))

/-- A leader that is deposed by a vote request keeps its own name. -/
theorem not_namesLeader_of_deposed {a : Action ν Cmd} (hI : ∀ n, KnowsItself n (s.nodes n).raft)
    (hdeposed : ¬ NotDeposed s a) (h : Moves M s a s') : ¬ NamesLeader s' := by
  cases h
  case requestVote call voter payload hcall hvoter =>
    have hleader : (s.nodes voter).raft.state = .leader ∧
        (s.nodes voter).raft.currentTerm < payload.term := by
      by_contra hnot
      refine hdeposed fun payload' hcall' hstate => ?_
      obtain rfl := Option.some.inj (hcall.symm.trans hcall')
      exact not_lt.1 fun hterm => hnot ⟨hstate, hterm⟩
    intro hnames
    have hself := hnames voter
    rw [Cluster.set_nodes_self, handleRequestVote_leaderId, handleRequestVote_state,
      if_pos hleader.2] at hself
    cases hself ((hI voter).2 hleader.1)
  -- nothing else is excluded
  all_goals exact absurd trivial hdeposed

theorem knowsItself_run (h : Run (Raft.step M) NotDeposed (initial callback) s) (n : ν) :
    KnowsItself n (s.nodes n).raft := by
  have hall := h.invariant
    (I := fun s => ElectionInv M s ∧ FrameInv M s ∧ ∀ n, KnowsItself n (s.nodes n).raft)
    (fun _ _ _ hI hok hstep =>
      have hmoves := moves_of_step hstep
      ⟨hI.1.step hmoves, hI.2.1.step hI.1 hmoves, KnowsItself.step hI.2.2 hI.2.1 hok hmoves⟩)
    ⟨electionInv_initial, frameInv_initial, fun _ => ⟨nofun, nofun⟩⟩
  exact hall.2.2 n

/-- **A node that takes itself for the leader leads**, and no node that does not lead forwards a
call to itself, as long as no leader is deposed by a vote request; the first leader that is deposed
so refers to itself. -/
theorem namesLeader (h : Run (Raft.step M) NotDeposed (initial callback) s) :
    NamesLeader s ∧ ForwardsElsewhere s ∧
      ∀ a s', Raft.step M s a = some s' → (NamesLeader s' ↔ NotDeposed s a) := by
  have hnames : ∀ {s : Cluster ν Cmd}, Run (Raft.step M) NotDeposed (initial callback) s →
      NamesLeader s := fun h n hself => (knowsItself_run h n).1 hself
  refine ⟨hnames h, forwardsElsewhere_iff.2 (hnames h), fun a s' hstep => ⟨fun hs' => ?_, ?_⟩⟩
  · by_contra hdeposed
    exact not_namesLeader_of_deposed (knowsItself_run h) hdeposed (moves_of_step hstep) hs'
  · exact fun hok => hnames (h.tail hok hstep)

/-- Node 0 leads in term 1 and knows it. -/
theorem namesLeader_firstHeartbeat :
    ∃ s : Cluster (Fin 3) ℕ, Run (Raft.step trio) NotDeposed (initial returning) s ∧
      (s.nodes 0).raft.leaderId = some 0 ∧ NamesLeader s ∧ ForwardsElsewhere s ∧
      ∀ a s', Raft.step trio s a = some s' → (NamesLeader s' ↔ NotDeposed s a) := by
  obtain ⟨s, hs, hself⟩ := Run.exists_of_exec (Raft.step trio) NotDeposed (initial returning)
    firstHeartbeat (fun s => (s.nodes 0).raft.leaderId = some 0) (by decide)
  exact ⟨s, hs, hself, namesLeader hs⟩

/-- Then it votes for node 2 in term 2, and sends what it cannot serve to itself. -/
theorem namesLeader_fails :
    (¬ ∀ s : Cluster (Fin 3) ℕ, Run (Raft.step trio) anyAction (initial returning) s →
      NamesLeader s) ∧
    ¬ ∀ s : Cluster (Fin 3) ℕ, Run (Raft.step trio) anyAction (initial returning) s →
      ForwardsElsewhere s := by
  obtain ⟨s, hs, hself, hstate⟩ := Run.exists_of_exec (Raft.step trio) anyAction
    (initial returning) deposedSender
    (fun s => (s.nodes 0).raft.leaderId = some 0 ∧ (s.nodes 0).raft.state = .follower) (by decide)
  have hnot : ¬ NamesLeader s := by
    intro hnames
    have hleader := hnames 0 hself
    rw [hstate] at hleader
    cases hleader
  exact ⟨fun hall => hnot (hall s hs), fun hall => hnot (forwardsElsewhere_iff.1 (hall s hs))⟩

end Raft
