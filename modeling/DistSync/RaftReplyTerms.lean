/-
**Higher terms in replies.**

Every reply of a Raft node carries its term, and both handlers adopt a higher term that they find in
a request.  The coroutines that wait for replies do not: `_start_election` looks at `vote_granted`
only, and `_replicate_to_peer` at `success`.  So a leader that is told of a later term stays leader
and takes the refusal for a mismatch of the logs, and a candidate that is told of one may still win.

A reply that grants something carries the term of the request, which is never above the term of the
node that made it.  What matters are the refusals.

Main definitions:

* `Raft.repliedTerms`, `Raft.refusedTerms` — the terms in the replies that a step processes;
* `Raft.LearnsTerms` — the node is afterwards in a term at least as high, as follower if it is new;
* `Raft.NoLaterRefusal` — no refusal that is processed carries a later term.

Main results:

* `Raft.replyTermInv_run` — a reply that grants carries the term of its request;
* `Raft.learnsTerms_iff` — **a step learns its terms exactly when no refusal carries a later one**;
* `Raft.learnsTerms_fails` — a candidate that wins, and a leader that stays, in an old term.
-/

import DistSync.RaftMatchIndex

set_option relaxedAutoImplicit false
set_option autoImplicit false

namespace Raft

open Runs TermLog

variable {ν Cmd : Type} [DecidableEq ν] {M : Membership ν} {s s' : Cluster ν Cmd}
  {callback : ν → ApplyCallback Cmd}

/-! ### The terms in replies -/

/-- The node whose coroutine resumes with replies, and the terms they carry. -/
def repliedTerms : Action ν Cmd → Option (ν × List ℕ)
  | .electionResult n replies => some (n, replies.map (·.2.term))
  | .replicateEnd n _ reply => some (n, reply.toList.map (·.term))
  | _ => none

/-- The terms in those of the replies that refuse. -/
def refusedTerms : Action ν Cmd → List ℕ
  | .electionResult _ replies => (replies.filter (! ·.2.voteGranted)).map (·.2.term)
  | .replicateEnd _ _ reply => (reply.toList.filter (! ·.success)).map (·.term)
  | _ => []

/-- **A node that learns of a higher term stops acting in the old one**: after it has processed
replies its term is at least theirs, and it is a follower if one of them was in a later term. -/
def LearnsTerms (s : Cluster ν Cmd) (a : Action ν Cmd) (s' : Cluster ν Cmd) : Prop :=
  ∀ n terms, repliedTerms a = some (n, terms) → ∀ T ∈ terms,
    T ≤ (s'.nodes n).raft.currentTerm ∧
    ((s.nodes n).raft.currentTerm < T → (s'.nodes n).raft.state = .follower)

/-- No refusal that a node processes carries a term above its own. -/
def NoLaterRefusal (s : Cluster ν Cmd) (a : Action ν Cmd) : Prop :=
  ∀ n terms, repliedTerms a = some (n, terms) → ∀ T ∈ refusedTerms a,
    T ≤ (s.nodes n).raft.currentTerm

omit [DecidableEq ν] in
theorem refusedTerms_subset {a : Action ν Cmd} {n : ν} {terms : List ℕ}
    (h : repliedTerms a = some (n, terms)) : ∀ T ∈ refusedTerms a, T ∈ terms := by
  cases a with
  | electionResult m replies =>
      cases h
      exact (List.filter_sublist.map _).subset
  | replicateEnd m k reply =>
      cases h
      exact (List.filter_sublist.map _).subset
  | electionTimeout | requestVote | appendEntry | heartbeat | replicateStart | appendEntries
  | appendEnd => cases h

/-- **Replies do not change the term of the node that processes them.** -/
theorem Moves.currentTerm_of_replies {a : Action ν Cmd} (h : Moves M s a s') {n : ν}
    {terms : List ℕ} (hreplied : repliedTerms a = some (n, terms)) :
    (s'.nodes n).raft.currentTerm = (s.nodes n).raft.currentTerm := by
  cases h with
  | electionWon =>
      cases hreplied
      rw [Cluster.set_nodes_self]
      rfl
  | electionLost =>
      cases hreplied
      rw [Cluster.set_nodes_self]
  | replicateEnd =>
      cases hreplied
      rw [Cluster.set_nodes_self, replicateReply_currentTerm]
  | electionTimeout | requestVote | appendEntry | heartbeat | heartbeatExit | replicateStart
  | appendEntries | appendEnd => cases hreplied

/-! ### Replies that grant -/

/-- A granted vote and a successful reply carry the term of the request. -/
structure ReplyTermInv (s : Cluster ν Cmd) : Prop where
  vote : ∀ answer ∈ s.voteReplies, answer.reply.voteGranted = true →
    answer.reply.term = answer.payload.term
  append : ∀ r ∈ s.appendReplies, r.2.success = true →
    ∃ c, s.appendCalls[r.1]? = some c ∧ r.2.term = c.payload.term

theorem voteReply_term {node : RaftNode ν Cmd} {data : RequestVote ν}
    (h : (handleRequestVote node data).2.voteGranted = true) :
    (handleRequestVote node data).2.term = data.term := by
  simp only [handleRequestVote] at h ⊢
  split_ifs at h ⊢ with hterm hcan
  exact (adoptTerm_currentTerm node data.term).trans (max_eq_right (not_lt.1 hterm))

omit [DecidableEq ν] in
theorem appendReply_term {node : RaftNode ν Cmd} {data : AppendEntries ν Cmd} {r : AppendReply}
    (h : (handleAppendEntries node data).2 = some r) (hsuccess : r.success = true) :
    r.term = data.term := by
  rcases lt_or_ge data.term node.currentTerm with hterm | hterm
  · rw [handleAppendEntries_of_stale node hterm] at h
    cases h
    cases hsuccess
  · cases hprev : prevMatches node.log data.prevLogIndex data.prevLogTerm with
    | false =>
        rw [handleAppendEntries_of_mismatch node hterm hprev] at h
        cases h
        cases hsuccess
    | true =>
        rw [handleAppendEntries, if_neg (not_lt.2 hterm)] at h
        simp only [acceptLeader_log, hprev, if_true, Option.ite_none_right_eq_some] at h
        obtain ⟨-, h⟩ := h
        cases h
        simp only [applyCommitted_currentTerm]
        exact (acceptLeader_currentTerm node data.term data.leaderId).trans (max_eq_right hterm)

theorem ReplyTermInv.step {a : Action ν Cmd} (hI : ReplyTermInv s) (h : Moves M s a s') :
    ReplyTermInv s' := by
  have hpre := h.appendCalls_prefix
  have happend : ∀ r ∈ s.appendReplies, r.2.success = true →
      ∃ c, s'.appendCalls[r.1]? = some c ∧ r.2.term = c.payload.term := by
    intro r hr hsuccess
    obtain ⟨c, hc, hterm⟩ := hI.append r hr hsuccess
    exact ⟨c, getElem?_of_isPrefix hpre hc, hterm⟩
  cases h with
  | requestVote =>
      refine ⟨fun answer hanswer hgranted => ?_, happend⟩
      rcases List.mem_append.1 hanswer with hanswer | hanswer
      · exact hI.vote answer hanswer hgranted
      · obtain rfl := List.mem_singleton.1 hanswer
        exact voteReply_term hgranted
  | @appendEntries call peer payload hcall =>
      refine ⟨hI.vote, fun r hr hsuccess => ?_⟩
      rcases List.mem_append.1 hr with hr | hr
      · exact happend r hr hsuccess
      · obtain ⟨reply, hreply, rfl⟩ := Option.map_eq_some_iff.1 (Option.mem_toList.1 hr)
        exact ⟨⟨peer, payload⟩, hcall, appendReply_term hreply hsuccess⟩
  | electionTimeout | electionWon | electionLost | appendEntry | heartbeat | heartbeatExit
  | replicateStart | replicateEnd | appendEnd => exact ⟨hI.vote, happend⟩

theorem replyTermInv_run {ok : Cluster ν Cmd → Action ν Cmd → Prop}
    (h : Run (step M) ok (initial callback) s) : ReplyTermInv s :=
  h.invariant (fun _ _ _ hI _ hstep => hI.step (moves_of_step hstep))
    ⟨fun _ h => (nomatch h), fun _ h => (nomatch h)⟩

/-- A reply that grants is not in a later term than the node that processes it. -/
theorem granted_term_le {ok : Cluster ν Cmd → Action ν Cmd → Prop} {a : Action ν Cmd}
    (h : Run (step M) ok (initial callback) s) (hstep : step M s a = some s') {n : ν}
    {terms : List ℕ} (hreplied : repliedTerms a = some (n, terms)) {T : ℕ} (hT : T ∈ terms)
    (hgrants : T ∉ refusedTerms a) : T ≤ (s.nodes n).raft.currentTerm := by
  have hreplies := replyTermInv_run h
  cases a with
  | electionResult m replies =>
      cases hreplied
      obtain ⟨r, hr, rfl⟩ := List.mem_map.1 hT
      have hgranted : r.2.voteGranted = true := by
        by_contra hnot
        exact hgrants (List.mem_map_of_mem (List.mem_filter.2 ⟨hr, by simpa using hnot⟩))
      simp only [step, electionResult] at hstep
      split at hstep
      · cases hstep
      · next payload hel =>
          rw [Option.ite_none_right_eq_some] at hstep
          have hanswer := (hstep.1.2 r hr).2
          rw [hreplies.vote _ hanswer hgranted]
          -- the candidate has voted for itself in the term of the request
          obtain ⟨-, hcall, hid⟩ := electionInv_run h n payload hel
          exact (voteInv_run h).term_le (.inl ⟨rfl, payload, hcall, hid, rfl⟩)
  | replicateEnd m k reply =>
      cases hreplied
      obtain ⟨r, hr, rfl⟩ := List.mem_map.1 hT
      have hsuccess : r.success = true := by
        by_contra hnot
        exact hgrants (List.mem_map_of_mem (List.mem_filter.2 ⟨hr, by simpa using hnot⟩))
      cases moves_of_step hstep with
      | @replicateEnd _ _ _ owner peer call next payload htask hreply =>
          obtain ⟨c, hc, hterm⟩ := hreplies.append _ (hreply r (Option.mem_toList.1 hr)) hsuccess
          have htask := List.mem_of_getElem? htask
          -- the task keeps the request that was answered, and the node was in its term
          rw [(((frameInv_run h).task n _ htask).call call next payload rfl).1] at hc
          cases hc
          rw [hterm]
          exact (tasksWait_run h n _ htask call next payload rfl).2
  | electionTimeout | requestVote | appendEntry | heartbeat | replicateStart | appendEntries
  | appendEnd => cases hreplied

/-! ### What is learned -/

/-- **When a node learns the terms of replies.**  In a reachable state a step that processes replies
brings the node to their terms, and makes it a follower where they are new, if and only if no
refusal among them carries a later term. -/
theorem learnsTerms_iff {a : Action ν Cmd} (h : Run (step M) anyAction (initial callback) s)
    (hstep : step M s a = some s') : LearnsTerms s a s' ↔ NoLaterRefusal s a := by
  have hsame : ∀ n terms, repliedTerms a = some (n, terms) →
      (s'.nodes n).raft.currentTerm = (s.nodes n).raft.currentTerm := fun _ _ hreplied =>
    (moves_of_step hstep).currentTerm_of_replies hreplied
  constructor
  · intro hlearns n terms hreplied T hT
    rw [← hsame n terms hreplied]
    exact (hlearns n terms hreplied T (refusedTerms_subset hreplied T hT)).1
  · intro hno n terms hreplied T hT
    have hle : T ≤ (s.nodes n).raft.currentTerm := by
      by_cases hrefused : T ∈ refusedTerms a
      · exact hno n terms hreplied T hrefused
      · exact granted_term_le h hstep hreplied hT hrefused
    rw [hsame n terms hreplied]
    exact ⟨hle, fun hlt => absurd hle (not_le.2 hlt)⟩

/-- Node 2 is in term 2 when it is asked for its vote in term 1; node 1 grants its vote. -/
def oldCandidate : List (Action (Fin 3) ℕ) :=
  [.electionTimeout 2, .electionResult 2 [], .electionTimeout 2, .electionTimeout 0,
    .requestVote 2 1, .requestVote 2 2]

/-- Node 0 counts both answers and wins, and node 2 refuses its heartbeat. -/
def oldLeader : List (Action (Fin 3) ℕ) :=
  oldCandidate ++ [.electionResult 0 [(1, ⟨1, true⟩), (2, ⟨2, false⟩)], .heartbeat 0,
    .replicateStart 0 1, .appendEntries 0]

/-- The heartbeat of a leader to node 1, which is accepted, teaches it nothing new. -/
theorem learnsTerms_iff_oldLeader :
    ∃ s s' : Cluster (Fin 3) ℕ, Run (step trio) anyAction (initial returning) s ∧
      step trio s (.replicateEnd 0 0 (some ⟨1, true⟩)) = some s' ∧
      LearnsTerms s (.replicateEnd 0 0 (some ⟨1, true⟩)) s' := by
  obtain ⟨s, hs, hstep⟩ := Run.exists_of_exec (step trio) anyAction (initial returning)
    (oldLeader ++ [.replicateStart 0 0, .appendEntries 1])
    (fun s => (step trio s (.replicateEnd 0 0 (some ⟨1, true⟩))).isSome = true) (by decide)
  obtain ⟨s', hs'⟩ := Option.isSome_iff_exists.1 hstep
  refine ⟨s, s', hs, hs', (learnsTerms_iff hs hs').2 fun n terms hreplied T hT => ?_⟩
  cases hT

/-- **Nodes do not always learn.**  A candidate of term 1 that is told of term 2 becomes leader of
term 1, and stays leader when its heartbeat is refused in term 2. -/
theorem learnsTerms_fails :
    ∃ s s' : Cluster (Fin 3) ℕ, Run (step trio) anyAction (initial returning) s ∧
      step trio s (.replicateEnd 0 1 (some ⟨2, false⟩)) = some s' ∧
      ¬ LearnsTerms s (.replicateEnd 0 1 (some ⟨2, false⟩)) s' ∧
      (s'.nodes 0).raft.state = .leader ∧ (s'.nodes 0).raft.currentTerm = 1 := by
  obtain ⟨s, hs, hstep⟩ := Run.exists_of_exec (step trio) anyAction (initial returning) oldLeader
    (fun s => ((step trio s (.replicateEnd 0 1 (some ⟨2, false⟩))).any fun s' =>
      decide ((s'.nodes 0).raft.state = .leader ∧ (s'.nodes 0).raft.currentTerm = 1)) = true)
    (by decide)
  obtain ⟨s', hs', hleader⟩ := (Option.any_eq_true _ _).1 hstep
  obtain ⟨hstate, hterm⟩ := of_decide_eq_true hleader
  refine ⟨s, s', hs, hs', fun hlearns => ?_, hstate, hterm⟩
  have hle := (hlearns 0 [2] rfl 2 (List.mem_singleton_self 2)).1
  rw [hterm] at hle
  exact absurd hle (by decide)

end Raft
