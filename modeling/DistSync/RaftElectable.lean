/-
**A majority can elect a leader.**

The safety of the cluster says what no run does.  This module is about what a run can do: from every
state, the nodes of a majority can bring one of them to lead, without any step of another node and
without any message that was sent before.  A node whose log is at least as good as the logs of this
majority is not refused there once its term is above theirs, and an election that times out raises
the term.  The check of the log compares the term of the last entry first and the length then
(`Raft.rank`), so that a best log always exists.

Only a node that does not lead starts an election, and a leader does not take notice of the terms in
the replies that it gets.  It has to be deposed before, which is the subject of
`DistSync/RaftAvailability.lean`.

Main definitions:

* `Raft.actor`, `Raft.Fresh`, `Raft.MovedBy` — the steps of some nodes, with new messages;
* `Raft.Reaches` — runs in which only some nodes take steps;
* `Raft.rank` — what a voter compares.

Main results:

* `Raft.exists_campaign` — a candidate gets above any term by itself;
* `Raft.exists_votes` — what the peers of a new candidate answer;
* `Raft.exists_elected` — **a node with the best log of a majority can be elected by it**.
-/

import DistSync.RaftSafety
import Mathlib.Data.Finset.Max
import Mathlib.Data.Prod.Lex

set_option relaxedAutoImplicit false
set_option autoImplicit false

namespace Raft

open Runs

variable {ν Cmd : Type} [DecidableEq ν] {M : Membership ν} {s s' s'' : Cluster ν Cmd}
  {Q : Finset ν} {n : ν} {callback : ν → ApplyCallback Cmd}

/-! ### Steps of some of the nodes -/

/-- The node that takes the step. -/
def actor (s : Cluster ν Cmd) : Action ν Cmd → Option ν
  | .electionTimeout n | .electionResult n _ | .appendEntry n _ | .heartbeat n
  | .replicateStart n _ | .replicateEnd n _ _ | .appendEnd n _ => some n
  | .requestVote _ voter => some voter
  | .appendEntries call => s.appendCalls[call]?.map (·.peer)

/-- Vote requests stay in the network, in their place. -/
theorem Moves.voteCalls_isPrefix {a : Action ν Cmd} (h : Moves M s a s') :
    s.voteCalls <+: s'.voteCalls := by
  cases h
  case electionTimeout => exact List.prefix_append _ _
  all_goals exact List.prefix_refl _

/-- A message that is handled comes from a node of `Q`, which has sent it after the state `s₀`. -/
def Fresh (Q : Finset ν) (s₀ s : Cluster ν Cmd) : Action ν Cmd → Prop
  | .requestVote call _ =>
      s₀.voteCalls.length ≤ call ∧ ∀ payload ∈ s.voteCalls[call]?, payload.candidateId ∈ Q
  | .appendEntries call =>
      s₀.appendCalls.length ≤ call ∧ ∀ c ∈ s.appendCalls[call]?, c.payload.leaderId ∈ Q
  | _ => True

/-- Only nodes of `Q` take steps, with nothing but their own new messages, and coroutines go on in
the term in which they were suspended. -/
def MovedBy (M : Membership ν) (Q : Finset ν) (s₀ s : Cluster ν Cmd) (a : Action ν Cmd) : Prop :=
  InTerm M s a ∧ (∀ n ∈ actor s a, n ∈ Q) ∧ Fresh Q s₀ s a

/-- Nodes of `Q` can bring the cluster from one state to another by themselves. -/
abbrev Reaches (M : Membership ν) (Q : Finset ν) (s s' : Cluster ν Cmd) : Prop :=
  Run (Raft.step M) (MovedBy M Q s) s s'

/-- The steps of some nodes are steps of the cluster. -/
theorem Reaches.inTerm (h : Reaches M Q s s') : Run (Raft.step M) (InTerm M) s s' :=
  h.mono fun _ _ => And.left

/-- Messages that are new after the end of a run are new after its start. -/
theorem MovedBy.of_run {ok : Cluster ν Cmd → Action ν Cmd → Prop} {s₀ : Cluster ν Cmd}
    (h₀ : Run (Raft.step M) ok s₀ s) (h : Run (Raft.step M) (MovedBy M Q s) s' s'') :
    Run (Raft.step M) (MovedBy M Q s₀) s' s'' := by
  have hlength : s₀.voteCalls.length ≤ s.voteCalls.length ∧
      s₀.appendCalls.length ≤ s.appendCalls.length := by
    refine h₀.preorder (R := fun s s' => s.voteCalls.length ≤ s'.voteCalls.length ∧
      s.appendCalls.length ≤ s'.appendCalls.length) (fun _ => ⟨le_rfl, le_rfl⟩)
      (fun _ _ _ h h' => ⟨h.1.trans h'.1, h.2.trans h'.2⟩) fun _ _ _ hstep => ?_
    have hmoves := moves_of_step hstep
    have happends := hmoves.appendCalls_prefix
    exact ⟨hmoves.voteCalls_isPrefix.length_le, happends.length_le⟩
  refine h.mono fun s a ⟨hterm, hactor, hfresh⟩ => ⟨hterm, hactor, ?_⟩
  cases a with
  | requestVote => exact ⟨hlength.1.trans hfresh.1, hfresh.2⟩
  | appendEntries => exact ⟨hlength.2.trans hfresh.1, hfresh.2⟩
  | _ => trivial

theorem Reaches.trans (h : Reaches M Q s s') (h' : Reaches M Q s' s'') : Reaches M Q s s'' :=
  Run.trans h (MovedBy.of_run h h')

/-! ### Better logs -/

omit [DecidableEq ν]

/-- What a vote request says of a log: the term of the last entry, and then the length. -/
def rank (log : List (LogEntry Cmd)) : ℕ ×ₗ ℕ :=
  toLex ((log.getLast?.map (·.term)).getD 0, log.length)

/-- **A log that is at least as good convinces.** -/
theorem convinces_of_rank {payload : RequestVote ν} {C L : List (LogEntry Cmd)}
    (hC : payload.describes C) (h : rank L ≤ rank C) : payload.convinces L := by
  rintro node rfl
  obtain ⟨hindex, hterm⟩ := hC
  have hlastTerm : (C.getLast?.map (·.term)).getD 0 = payload.lastLogTerm := by
    rw [hterm]
    cases C.getLast? <;> rfl
  rw [rank, rank, hlastTerm, Prod.Lex.toLex_le_toLex] at h
  unfold isLogUpToDate
  cases hlast : node.log.getLast? with
  | none => rfl
  | some last =>
      simp only [hlast, Option.map_some, Option.getD_some] at h ⊢
      rcases h with hlt | ⟨heq, hlen⟩
      · rw [if_pos hlt.ne']
        exact decide_eq_true hlt
      · rw [if_neg (not_not.2 heq.symm), hindex]
        exact decide_eq_true (by omega)

/-- Some node of a majority has the best log in it. -/
theorem exists_best (s : Cluster ν Cmd) (hQ : M.IsMajority Q) :
    ∃ n ∈ Q, ∀ q ∈ Q, rank (s.nodes q).raft.log ≤ rank (s.nodes n).raft.log := by
  have hne : Q.Nonempty := Finset.card_pos.1 (by have := hQ.2; omega)
  exact Q.exists_max_image (fun q => rank (s.nodes q).raft.log) hne

/-! ### Elections without an answer -/

/-- What a node leaves alone while its elections time out. -/
structure Campaign (n : ν) (s s' : Cluster ν Cmd) : Prop where
  state : (s'.nodes n).raft.state ≠ .leader
  log : (s'.nodes n).raft.log = (s.nodes n).raft.log
  others : ∀ m, m ≠ n → s'.nodes m = s.nodes m

variable [DecidableEq ν]

/-- The next election of a node that waits for none. -/
theorem step_electionTimeout (hn : n ∈ M.nodes) (hstate : (s.nodes n).raft.state ≠ .leader)
    (hidle : (s.nodes n).election = none) :
    Raft.step M s (.electionTimeout n) = some
      { s.set n { s.nodes n with
          raft := (startElection n (s.nodes n).raft).1
          election := some (startElection n (s.nodes n).raft).2 } with
        voteCalls := s.voteCalls ++ [(startElection n (s.nodes n).raft).2] } := by
  rw [step, electionTimeout]
  exact if_pos ⟨hn, hstate, hidle⟩

omit [DecidableEq ν] in
/-- The own vote does not decide where there are peers. -/
theorem not_majority_of_peers (hpeers : M.peers n ≠ []) :
    ¬ majority (M.peers n) ≤ countVotes [] := by
  have := List.length_pos_iff.2 hpeers
  simp only [majority, countVotes, List.countP_nil]
  omega

/-- So an election that gets no answer is lost. -/
theorem step_electionLost {payload : RequestVote ν} (hel : (s.nodes n).election = some payload)
    (hpeers : M.peers n ≠ []) :
    Raft.step M s (.electionResult n []) =
      some (s.set n { s.nodes n with election := none }) := by
  simp only [step, electionResult, hel, List.map_nil]
  rw [if_pos ⟨List.nodup_nil, fun r hr => absurd hr List.not_mem_nil⟩,
    if_neg (not_majority_of_peers hpeers)]

/-- **A candidate gets above any term by itself**: its elections time out one after the other. -/
theorem exists_campaign (hn : n ∈ M.nodes) (hQ : n ∈ Q) (hpeers : M.peers n ≠ [])
    (hstate : (s.nodes n).raft.state ≠ .leader) (T : ℕ) :
    ∃ s', Reaches M Q s s' ∧ Campaign n s s' ∧ (s'.nodes n).election = none ∧
      T ≤ (s'.nodes n).raft.currentTerm := by
  have hactor : ∀ m ∈ some n, m ∈ Q := fun m hm => Option.some.inj hm ▸ hQ
  -- an election that is over leaves one term less to go, and one that runs has to end first
  refine Run.exists_of_work (I := Campaign n s)
    (fun s => 2 * (T - (s.nodes n).raft.currentTerm) + (s.nodes n).election.isSome.toNat)
    (fun s₁ hI hgoal => ?_) ⟨hstate, rfl, fun _ _ => rfl⟩
  cases hel : (s₁.nodes n).election with
  | none =>
      have hlow : (s₁.nodes n).raft.currentTerm < T := not_le.1 fun hle => hgoal ⟨hI, hel, hle⟩
      refine ⟨.electionTimeout n, _, ⟨trivial, hactor, trivial⟩,
        step_electionTimeout hn hI.state hel, ⟨?_, ?_, ?_⟩, ?_⟩
      · simp [startElection]
      · simpa [startElection] using hI.log
      · exact fun m hm => (Cluster.set_nodes_of_ne hm _).trans (hI.others m hm)
      · simp only [Cluster.set_nodes_self, startElection, Option.isSome_some, Bool.toNat_true,
          Option.isSome_none, Bool.toNat_false]
        omega
  | some payload =>
      refine ⟨.electionResult n [], _,
        ⟨fun hwon => absurd hwon (not_majority_of_peers hpeers), hactor, trivial⟩,
        step_electionLost hel hpeers, ⟨?_, ?_, ?_⟩, ?_⟩
      · simpa using hI.state
      · simpa using hI.log
      · exact fun m hm => (Cluster.set_nodes_of_ne hm _).trans (hI.others m hm)
      · simp

/-! ### Votes for a new term -/

/-- **A voter that hears of a new term grants its vote to a log that convinces it.** -/
theorem handleRequestVote_of_lt {node : RaftNode ν Cmd} {data : RequestVote ν}
    (hterm : node.currentTerm < data.term)
    (hlog : isLogUpToDate node data.lastLogIndex data.lastLogTerm = true) :
    handleRequestVote node data =
      ({ node with
          currentTerm := data.term
          votedFor := some data.candidateId
          state := .follower }, ⟨data.term, true⟩) := by
  rw [handleRequestVote, if_neg (not_lt.2 hterm.le), adoptTerm_of_lt node hterm]
  exact if_pos ⟨.inl rfl, hlog⟩

/-- What the voters of a list have done: all of them are in the new term and follow, and their
votes are on the way. -/
structure Polled (payload : RequestVote ν) (voters : List ν) (s s' : Cluster ν Cmd) : Prop where
  reply : ∀ q ∈ voters, ⟨payload, q, ⟨payload.term, true⟩⟩ ∈ s'.voteReplies
  term : ∀ q ∈ voters, (s'.nodes q).raft.currentTerm = payload.term
  state : ∀ q ∈ voters, (s'.nodes q).raft.state = .follower
  log : ∀ q ∈ voters, (s'.nodes q).raft.log = (s.nodes q).raft.log
  others : ∀ m, m ∉ voters → s'.nodes m = s.nodes m

theorem voteReplies_mono {ok : Cluster ν Cmd → Action ν Cmd → Prop}
    (h : Run (Raft.step M) ok s s') : s.voteReplies ⊆ s'.voteReplies :=
  h.preorder (R := fun s s' => s.voteReplies ⊆ s'.voteReplies) (fun _ _ h => h)
    (fun _ _ _ => List.Subset.trans) fun _ _ _ hstep => (moves_of_step hstep).network_mono.2

/-- A peer of the candidate votes for it when its term is new to the peer and its log convinces. -/
theorem exists_vote {s₀ : Cluster ν Cmd} {call : ℕ} {payload : RequestVote ν} {q : ν}
    (hcall : s.voteCalls[call]? = some payload) (hnew : s₀.voteCalls.length ≤ call)
    (hcandidate : payload.candidateId ∈ Q) (hq : q ∈ Q) (hpeer : q ∈ M.peers payload.candidateId)
    (hterm : (s.nodes q).raft.currentTerm < payload.term)
    (hlog : payload.convinces (s.nodes q).raft.log) :
    ∃ s', Run (Raft.step M) (MovedBy M Q s₀) s s' ∧ Polled payload [q] s s' ∧
      s'.voteCalls = s.voteCalls := by
  have hstep : Raft.step M s (.requestVote call q) = some
      { s.set q { s.nodes q with
          raft := (handleRequestVote (s.nodes q).raft payload).1 } with
        voteReplies := s.voteReplies ++
          [⟨payload, q, (handleRequestVote (s.nodes q).raft payload).2⟩] } := by
    simp only [step, requestVote, hcall, if_pos hpeer]
  rw [handleRequestVote_of_lt hterm (hlog _ rfl)] at hstep
  have hmoved : MovedBy M Q s₀ s (.requestVote call q) := by
    refine ⟨trivial, fun m hm => Option.some.inj hm ▸ hq, hnew, fun payload' hpayload' => ?_⟩
    rw [hcall] at hpayload'
    exact Option.some.inj hpayload' ▸ hcandidate
  refine ⟨_, .single hmoved hstep, ⟨?_, ?_, ?_, ?_, fun m hm => ?_⟩, rfl⟩
  · exact fun m hm => List.mem_singleton.1 hm ▸ List.mem_append_right _ (List.mem_singleton_self _)
  · exact fun m hm => List.mem_singleton.1 hm ▸ by simp
  · exact fun m hm => List.mem_singleton.1 hm ▸ by simp
  · exact fun m hm => List.mem_singleton.1 hm ▸ by simp
  · exact Cluster.set_nodes_of_ne (fun heq => hm (List.mem_singleton.2 heq)) _

/-- **The peers of a candidate vote for it**, one after the other, when its term is new to them and
its log convinces them. -/
theorem exists_votes {s₀ : Cluster ν Cmd} {call : ℕ} {payload : RequestVote ν}
    (hcall : s.voteCalls[call]? = some payload) (hnew : s₀.voteCalls.length ≤ call)
    (hcandidate : payload.candidateId ∈ Q) {voters : List ν} (hnodup : voters.Nodup)
    (hvoters : ∀ q ∈ voters, q ∈ Q ∧ q ∈ M.peers payload.candidateId ∧
      (s.nodes q).raft.currentTerm < payload.term ∧ payload.convinces (s.nodes q).raft.log) :
    ∃ s', Run (Raft.step M) (MovedBy M Q s₀) s s' ∧ Polled payload voters s s' := by
  induction voters generalizing s with
  | nil =>
      have hnone : ∀ q : ν, q ∉ ([] : List ν) := fun _ => List.not_mem_nil
      exact ⟨s, .refl s, ⟨fun q hq => absurd hq (hnone q), fun q hq => absurd hq (hnone q),
        fun q hq => absurd hq (hnone q), fun q hq => absurd hq (hnone q), fun _ _ => rfl⟩⟩
  | cons q voters ih =>
      obtain ⟨hq, hnodup⟩ := List.nodup_cons.1 hnodup
      obtain ⟨hqQ, hpeer, hterm, hlog⟩ := hvoters q List.mem_cons_self
      obtain ⟨s₁, hfirst, hpolled, hcalls⟩ := exists_vote hcall hnew hcandidate hqQ hpeer hterm hlog
      -- the other voters have not noticed
      have hsame : ∀ m ∈ voters, s₁.nodes m = s.nodes m := fun m hm =>
        hpolled.others m fun hmem => hq (List.mem_singleton.1 hmem ▸ hm)
      obtain ⟨s', hrest, hpolled'⟩ := ih (hcalls ▸ hcall) hnodup fun m hm => by
        rw [hsame m hm]
        exact hvoters m (List.mem_cons_of_mem q hm)
      have hvoter := hpolled'.others q hq
      have hself := List.mem_singleton_self q
      refine ⟨s', hfirst.trans hrest, ⟨?_, ?_, ?_, ?_, fun m hm => ?_⟩⟩
      · exact List.forall_mem_cons.2 ⟨voteReplies_mono hrest (hpolled.reply q hself),
          hpolled'.reply⟩
      · exact List.forall_mem_cons.2 ⟨hvoter ▸ hpolled.term q hself, hpolled'.term⟩
      · exact List.forall_mem_cons.2 ⟨hvoter ▸ hpolled.state q hself, hpolled'.state⟩
      · refine List.forall_mem_cons.2 ⟨hvoter ▸ hpolled.log q hself, fun m hm => ?_⟩
        rw [hpolled'.log m hm, hsame m hm]
      · rw [hpolled'.others m fun hmem => hm (List.mem_cons_of_mem q hmem)]
        exact hpolled.others m fun hmem => hm (List.mem_singleton.1 hmem ▸ List.mem_cons_self)

/-! ### The tally -/

/-- The members of a majority that are peers of one of them are enough to elect it. -/
theorem majority_le_of_isMajority (hQ : M.IsMajority Q) (hn : n ∈ Q) :
    majority (M.peers n) ≤ 1 + ((M.peers n).filter (· ∈ Q)).length := by
  have hnodes := hQ.1 n hn
  have hsub : Q ⊆ insert n ((M.peers n).filter (· ∈ Q)).toFinset := by
    intro q hq
    by_cases hqn : q = n
    · exact hqn ▸ Finset.mem_insert_self _ _
    · refine Finset.mem_insert_of_mem (List.mem_toFinset.2 (List.mem_filter.2 ⟨?_, ?_⟩))
      · exact (M.mem_peers hnodes).2 ⟨hQ.1 q hq, hqn⟩
      · exact decide_eq_true hq
  have hcard := (Finset.card_le_card hsub).trans (Finset.card_insert_le _ _)
  have hlist := List.toFinset_card_le ((M.peers n).filter (· ∈ Q))
  have hpeers := M.length_peers hnodes
  have hmajority := hQ.2
  simp only [majority]
  omega

/-- **The candidate of a term wins it with the votes of its voters**, if they are enough. -/
theorem exists_won (s₀ : Cluster ν Cmd) {payload : RequestVote ν} {voters : List ν} (hn : n ∈ Q)
    (hel : (s.nodes n).election = some payload)
    (hterm : (s.nodes n).raft.currentTerm = payload.term) (hnodup : voters.Nodup)
    (hvoters : ∀ q ∈ voters, q ∈ M.peers n)
    (hreply : ∀ q ∈ voters, ⟨payload, q, ⟨payload.term, true⟩⟩ ∈ s.voteReplies)
    (hmajority : majority (M.peers n) ≤ 1 + voters.length) :
    ∃ s', Run (Raft.step M) (MovedBy M Q s₀) s s' ∧
      s' = s.set n ((s.nodes n).won n (M.peers n)) := by
  set replies : List (ν × VoteReply) := voters.map fun q => (q, ⟨payload.term, true⟩) with hreplies
  have hfst : replies.map Prod.fst = voters := by
    rw [hreplies, List.map_map]
    exact List.map_id _
  have hcount : countVotes (replies.map Prod.snd) = 1 + voters.length := by
    rw [countVotes, hreplies, List.map_map, List.countP_map]
    exact congrArg _ (List.countP_eq_length.2 fun _ _ => rfl)
  have hstep : Raft.step M s (.electionResult n replies) =
      some (s.set n ((s.nodes n).won n (M.peers n))) := by
    simp only [step, electionResult, hel]
    have hall : ∀ r ∈ replies, r.1 ∈ M.peers n ∧ ⟨payload, r.1, r.2⟩ ∈ s.voteReplies := by
      intro r hr
      obtain ⟨q, hq, rfl⟩ := List.mem_map.1 hr
      exact ⟨hvoters q hq, hreply q hq⟩
    rw [if_pos ⟨hfst ▸ hnodup, hall⟩, if_pos (hcount ▸ hmajority)]
  have hmoved : MovedBy M Q s₀ s (.electionResult n replies) := by
    refine ⟨fun _ payload' hel' => ?_, fun m hm => Option.some.inj hm ▸ hn, trivial⟩
    rw [hel] at hel'
    exact Option.some.inj hel' ▸ hterm
  exact ⟨_, .single hmoved hstep, rfl⟩

/-- What the nodes of a majority are after they have elected one of them: it leads, all others are
in its term and follow, and no log has changed. -/
structure Elected (M : Membership ν) (Q : Finset ν) (n : ν) (s s' : Cluster ν Cmd) : Prop where
  leads : (s'.nodes n).raft.state = .leader
  term : ∀ q ∈ Q, (s'.nodes q).raft.currentTerm = (s'.nodes n).raft.currentTerm
  follows : ∀ q ∈ Q, q ≠ n → (s'.nodes q).raft.state = .follower
  log : ∀ q ∈ Q, (s'.nodes q).raft.log = (s.nodes q).raft.log
  nextIndex : ∀ q ∈ M.peers n, (s'.nodes n).raft.nextIndex q = (s'.nodes n).raft.log.length
  heartbeat : (s'.nodes n).heartbeat = true

/-- In a cluster of more than one node, a new term is started and won. -/
theorem exists_elected_of_peers (hQ : M.IsMajority Q) (hn : n ∈ Q) (hpeers : M.peers n ≠ [])
    (hstate : (s.nodes n).raft.state ≠ .leader)
    (hbest : ∀ q ∈ Q, rank (s.nodes q).raft.log ≤ rank (s.nodes n).raft.log) :
    ∃ s', Reaches M Q s s' ∧ Elected M Q n s s' := by
  have hnodes := hQ.1 n hn
  obtain ⟨s₁, hcampaign, hC, hidle, habove⟩ := exists_campaign hnodes hn hpeers hstate
    (Q.sup fun q => (s.nodes q).raft.currentTerm)
  -- the new term is above the terms of all voters
  have hstep := step_electionTimeout hnodes hC.state hidle
  set payload := (startElection n (s₁.nodes n).raft).2 with hpayload
  set s₂ : Cluster ν Cmd := { s₁.set n { s₁.nodes n with
      raft := (startElection n (s₁.nodes n).raft).1
      election := some payload } with
    voteCalls := s₁.voteCalls ++ [payload] } with hs₂
  have hmoved : MovedBy M Q s₁ s₁ (.electionTimeout n) :=
    ⟨trivial, fun m hm => Option.some.inj hm ▸ hn, trivial⟩
  have hstart : Reaches M Q s₁ s₂ := .single hmoved hstep
  have hself : s₂.nodes n = { s₁.nodes n with
      raft := (startElection n (s₁.nodes n).raft).1
      election := some payload } := Cluster.set_nodes_self n _
  have hother : ∀ q, q ≠ n → s₂.nodes q = s.nodes q := fun q hq =>
    (Cluster.set_nodes_of_ne hq _).trans (hC.others q hq)
  set voters := (M.peers n).filter (· ∈ Q) with hvoters
  have hmem : ∀ q ∈ voters, q ∈ M.peers n ∧ q ∈ Q ∧ q ≠ n := fun q hq =>
    have h := List.mem_filter.1 hq
    ⟨h.1, of_decide_eq_true h.2, ((M.mem_peers hnodes).1 h.1).2⟩
  have hnodup : voters.Nodup := (nodup_peers hnodes).filter _
  have hcall : s₂.voteCalls[s₁.voteCalls.length]? = some payload := by simp [hs₂]
  obtain ⟨s₃, hpoll, hP⟩ := exists_votes (M := M) (Q := Q) hcall le_rfl hn hnodup fun q hq => by
      obtain ⟨hpeer, hqQ, hqn⟩ := hmem q hq
      have hle := Finset.le_sup (f := fun q => (s.nodes q).raft.currentTerm) hqQ
      rw [hother q hqn]
      refine ⟨hqQ, hpeer, Nat.lt_succ_of_le (hle.trans habove), ?_⟩
      exact convinces_of_rank (C := (s₁.nodes n).raft.log) ⟨rfl, rfl⟩ (hC.log ▸ hbest q hqQ)
  have hn₃ : s₃.nodes n = s₂.nodes n := hP.others n fun hmem' => (hmem n hmem').2.2 rfl
  have hel : (s₃.nodes n).election = some payload := by rw [hn₃, hself]
  obtain ⟨s₄, hwin, hs₄⟩ := exists_won (M := M) s₁ hn hel (by rw [hn₃, hself]; rfl) hnodup
    (fun q hq => (hmem q hq).1) hP.reply (majority_le_of_isMajority hQ hn)
  have hleader : s₄.nodes n = (s₃.nodes n).won n (M.peers n) :=
    hs₄ ▸ Cluster.set_nodes_self n _
  have hvoter : ∀ q ∈ Q, q ≠ n → q ∈ voters ∧ s₄.nodes q = s₃.nodes q := fun q hq hqn =>
    ⟨List.mem_filter.2 ⟨(M.mem_peers hnodes).2 ⟨hQ.1 q hq, hqn⟩, decide_eq_true hq⟩,
      hs₄ ▸ Cluster.set_nodes_of_ne hqn _⟩
  have hterm : (s₄.nodes n).raft.currentTerm = payload.term := by
    rw [hleader, hn₃, hself]
    rfl
  refine ⟨s₄, hcampaign.trans ((Run.trans hstart hpoll).trans hwin), ⟨?_, ?_, ?_, ?_, ?_, ?_⟩⟩
  · rw [hleader]
    rfl
  · intro q hq
    by_cases hqn : q = n
    · rw [hqn]
    · rw [(hvoter q hq hqn).2, hP.term q (hvoter q hq hqn).1, hterm]
  · intro q hq hqn
    rw [(hvoter q hq hqn).2]
    exact hP.state q (hvoter q hq hqn).1
  · intro q hq
    by_cases hqn : q = n
    · rw [hqn, hleader, hn₃, hself]
      exact hC.log
    · rw [(hvoter q hq hqn).2, hP.log q (hvoter q hq hqn).1, hother q hqn]
  · intro q hq
    rw [hleader]
    exact if_pos hq
  · rw [hleader]
    rfl

/-! ### A cluster of one node -/

omit [DecidableEq ν] in
/-- A member without peers is the only one. -/
theorem eq_of_peers_nil (hn : n ∈ M.nodes) (hpeers : M.peers n = []) {m : ν} (hm : m ∈ M.nodes) :
    m = n := by
  by_contra hne
  have hmem := (M.mem_peers hn).2 ⟨hm, hne⟩
  rw [hpeers] at hmem
  cases hmem

/-- Nobody brings a node without peers into another term while its election is pending. -/
structure AloneInv (M : Membership ν) (n : ν) (s : Cluster ν Cmd) : Prop where
  election : ElectionInv M s
  frame : FrameInv M s
  candidate : ∀ payload ∈ s.voteCalls, payload.candidateId ∈ M.nodes
  term : ∀ payload, (s.nodes n).election = some payload →
    (s.nodes n).raft.currentTerm = payload.term

theorem AloneInv.step {a : Action ν Cmd} (hI : AloneInv M n s) (hn : n ∈ M.nodes)
    (hpeers : M.peers n = []) (h : Moves M s a s') : AloneInv M n s' := by
  refine ⟨hI.election.step h, hI.frame.step hI.election h, ?_, ?_⟩
  · cases h
    case electionTimeout hm _ _ =>
      exact fun payload hp => (List.mem_append.1 hp).elim (hI.candidate payload) fun hp =>
        List.mem_singleton.1 hp ▸ hm
    all_goals exact hI.candidate
  · have key : ∀ {m : ν} {p : Process ν Cmd},
        (m = n → ∀ payload, p.election = some payload → p.raft.currentTerm = payload.term) →
        ∀ payload, ((s.set m p).nodes n).election = some payload →
          ((s.set m p).nodes n).raft.currentTerm = payload.term := by
      intro m p hp
      by_cases hm : m = n
      · rw [hm, Cluster.set_nodes_self]
        exact hp hm
      · rw [Cluster.set_nodes_of_ne (Ne.symm hm)]
        exact hI.term
    cases h with
    | electionTimeout =>
        refine key fun _ payload hel => ?_
        obtain rfl := Option.some.inj hel
        rfl
    | @requestVote call voter payload hcall hvoter =>
        -- there is nobody to answer a request
        have hself := eq_of_peers_nil hn hpeers (hI.candidate _ (List.mem_of_getElem? hcall))
        rw [hself, hpeers] at hvoter
        cases hvoter
    | electionWon => exact key fun _ _ hel => by cases hel
    | electionLost => exact key fun _ _ hel => by cases hel
    | appendEntry => exact key fun hm => hm ▸ hI.term
    | heartbeat => exact key fun hm => hm ▸ hI.term
    | heartbeatExit => exact key fun hm => hm ▸ hI.term
    | replicateStart => exact key fun hm => hm ▸ hI.term
    | @appendEntries call peer payload hcall =>
        obtain ⟨hleader, hpeer⟩ := hI.frame.call _ (List.mem_of_getElem? hcall)
        rw [eq_of_peers_nil hn hpeers hleader, hpeers] at hpeer
        cases hpeer
    | replicateEnd =>
        refine key fun hm payload hel => ?_
        subst hm
        rw [replicateReply_currentTerm]
        exact hI.term payload hel
    | appendEnd =>
        refine key fun hm payload hel => ?_
        subst hm
        rw [concludeAppend_currentTerm]
        exact hI.term payload hel

/-- In a cluster of one node, it is enough to end the election. -/
theorem exists_elected_of_alone (h : Run (Raft.step M) (InTerm M) (initial callback) s)
    (hQ : M.IsMajority Q) (hn : n ∈ Q) (hpeers : M.peers n = [])
    (hstate : (s.nodes n).raft.state ≠ .leader) :
    ∃ s', Reaches M Q s s' ∧ Elected M Q n s s' := by
  have hnodes := hQ.1 n hn
  have hsole : ∀ q ∈ Q, q = n := fun q hq => eq_of_peers_nil hnodes hpeers (hQ.1 q hq)
  have hmajority : majority (M.peers n) ≤ 1 + ([] : List ν).length := by
    rw [hpeers]
    simp [majority]
  -- an election that runs ends with the own vote
  have key : ∀ {s₁ : Cluster ν Cmd} {payload : RequestVote ν}, Reaches M Q s s₁ →
      (s₁.nodes n).election = some payload → (s₁.nodes n).raft.currentTerm = payload.term →
      (s₁.nodes n).raft.log = (s.nodes n).raft.log →
      ∃ s', Reaches M Q s s' ∧ Elected M Q n s s' := by
    intro s₁ payload hreach hel hterm hlog
    obtain ⟨s', hwin, hs'⟩ := exists_won (M := M) s₁ hn hel hterm List.nodup_nil
      (fun _ hq => absurd hq List.not_mem_nil) (fun _ hq => absurd hq List.not_mem_nil) hmajority
    have hleader : s'.nodes n = (s₁.nodes n).won n (M.peers n) := hs' ▸ Cluster.set_nodes_self n _
    refine ⟨s', hreach.trans hwin, ⟨?_, ?_, ?_, ?_, ?_, ?_⟩⟩
    · rw [hleader]
      rfl
    · exact fun q hq => by rw [hsole q hq]
    · exact fun q hq hqn => absurd (hsole q hq) hqn
    · intro q hq
      rw [hsole q hq, hleader]
      exact hlog
    · exact fun q hq => absurd (hpeers ▸ hq) List.not_mem_nil
    · rw [hleader]
      rfl
  cases hel : (s.nodes n).election with
  | some payload =>
      have hI : AloneInv M n s := h.invariant
        (fun _ _ _ hI _ hstep => hI.step hnodes hpeers (moves_of_step hstep))
        ⟨electionInv_initial, frameInv_initial, fun _ hp => absurd hp List.not_mem_nil,
          fun _ hel => by cases hel⟩
      exact key (.refl s) hel (hI.term payload hel) rfl
  | none =>
      have hmoved : MovedBy M Q s s (.electionTimeout n) :=
        ⟨trivial, fun m hm => Option.some.inj hm ▸ hn, trivial⟩
      refine key (.single hmoved (step_electionTimeout hnodes hstate hel))
        (by rw [Cluster.set_nodes_self]) ?_ ?_
      · simp [startElection]
      · simp [startElection]

/-- **A node of a majority can be elected by it** if it does not lead and has the best log. -/
theorem exists_elected (h : Run (Raft.step M) (InTerm M) (initial callback) s)
    (hQ : M.IsMajority Q) (hn : n ∈ Q) (hstate : (s.nodes n).raft.state ≠ .leader)
    (hbest : ∀ q ∈ Q, rank (s.nodes q).raft.log ≤ rank (s.nodes n).raft.log) :
    ∃ s', Reaches M Q s s' ∧ Elected M Q n s s' := by
  by_cases hpeers : M.peers n = []
  · exact exists_elected_of_alone h hQ hn hpeers hstate
  · exact exists_elected_of_peers hQ hn hpeers hstate hbest

end Raft
