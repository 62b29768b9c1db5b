/-
**Votes, winning tallies, and the leaders of a term.**

A vote is cast either by a node for itself, when it starts an election, or in a granted reply.
Both leave a trace in the network that is never erased, so the votes of a run can be read off any
state of it (`Raft.Granted`).  This module proves that a node votes at most once in a term, that
therefore at most one candidate collects a majority for a term, and derives what this says about
leaders.

`_become_leader` does not look at the term: it is called when the tally of `_start_election` is
complete, and the node may have moved to a later term while it waited.  Then it becomes leader of
a term in which nobody elected it (`Raft.electionSafety_fails`).  In the runs where a tally is only
won in the term it was started in (`Raft.TallyInTerm`) there is one leader for each term
(`Raft.electionSafety`).

Main definitions:

* `Raft.Granted` — a node has voted for a candidate in a term;
* `Raft.Won` — a candidate has the votes of a majority;
* `Raft.CompletesTally` — a node can end an election with the votes of a majority;
* `Raft.VoteInv` — the votes agree with the fields of the nodes, and each node votes once a term.

Main results:

* `Raft.voteInv_run` — **the vote invariant holds in every run**;
* `Raft.Won.unique` — **two candidates with a majority in the same term are the same**;
* `Raft.oneCandidacy` — terms only grow, votes are unique, and so are completed tallies;
* `Raft.electionSafety`, `Raft.electionSafety_fails`.
-/

import DistSync.RaftCluster

set_option relaxedAutoImplicit false
set_option autoImplicit false

namespace Raft

open Runs

variable {ν Cmd : Type} [DecidableEq ν] {M : Membership ν} {s s' : Cluster ν Cmd}
  {callback : ν → ApplyCallback Cmd}

/-! ### A vote is kept within a term -/

/-- The term does not go down, and a vote cast in a term is kept as long as the term lasts. -/
def KeepsVote (node node' : RaftNode ν Cmd) : Prop :=
  node.currentTerm ≤ node'.currentTerm ∧
    (node.currentTerm = node'.currentTerm → ∀ c, node.votedFor = some c → node'.votedFor = some c)

omit [DecidableEq ν] in
theorem KeepsVote.refl (node : RaftNode ν Cmd) : KeepsVote node node := ⟨le_rfl, fun _ _ h => h⟩

omit [DecidableEq ν] in
theorem KeepsVote.of_eq {node node' : RaftNode ν Cmd} (hterm : node'.currentTerm = node.currentTerm)
    (hvote : node'.votedFor = node.votedFor) : KeepsVote node node' :=
  ⟨hterm.ge, fun _ c h => by rw [hvote, h]⟩

omit [DecidableEq ν] in
theorem keepsVote_adoptTerm (node : RaftNode ν Cmd) (term : ℕ) :
    KeepsVote node (adoptTerm node term) := by
  rcases lt_or_ge node.currentTerm term with h | h
  · rw [adoptTerm_of_lt node h]
    exact ⟨h.le, fun heq => absurd heq h.ne⟩
  · rw [adoptTerm_of_le node h]
    exact KeepsVote.refl node

theorem keepsVote_handleRequestVote (node : RaftNode ν Cmd) (data : RequestVote ν) :
    KeepsVote node (handleRequestVote node data).1 := by
  have hadopt := keepsVote_adoptTerm node data.term
  cases hg : (handleRequestVote node data).2.voteGranted with
  | false => rwa [handleRequestVote_refused node hg]
  | true =>
      obtain ⟨-, hcan, -, hnode⟩ := handleRequestVote_granted node hg
      rw [hnode]
      refine ⟨hadopt.1, fun heq c hc => ?_⟩
      have hold := hadopt.2 heq c hc
      rcases hcan with hcan | hcan
      · rw [hcan] at hold; cases hold
      · rwa [hcan] at hold

omit [DecidableEq ν] in
theorem keepsVote_handleAppendEntries (node : RaftNode ν Cmd) (data : AppendEntries ν Cmd) :
    KeepsVote node (handleAppendEntries node data).1 := by
  rw [KeepsVote, handleAppendEntries_currentTerm]
  refine ⟨le_max_left _ _, fun heq c hc => ?_⟩
  rwa [handleAppendEntries_votedFor node (by omega)]

/-- **No step takes back a term or a vote.** -/
theorem Moves.keepsVote {a : Action ν Cmd} (h : Moves M s a s') (m : ν) :
    KeepsVote (s.nodes m).raft (s'.nodes m).raft := by
  have key : ∀ {n : ν} {p : Process ν Cmd}, KeepsVote (s.nodes n).raft p.raft →
      KeepsVote (s.nodes m).raft ((s.set n p).nodes m).raft := fun hp =>
    Cluster.set_rel (R := fun p p' => KeepsVote p.raft p'.raft) (fun p => .refl p.raft) hp m
  cases h with
  | electionTimeout =>
      exact key ⟨Nat.le_succ _, fun heq => absurd heq (Nat.lt_succ_self _).ne⟩
  | requestVote => exact key (keepsVote_handleRequestVote _ _)
  | electionWon => exact key (.of_eq rfl rfl)
  | electionLost => exact key (.refl _)
  | appendEntry => exact key (.of_eq rfl rfl)
  | heartbeat => exact key (.refl _)
  | heartbeatExit => exact key (.refl _)
  | replicateStart => exact key (.refl _)
  | appendEntries => exact key (keepsVote_handleAppendEntries _ _)
  | replicateEnd => exact key (.of_eq (by simp) (by simp))
  | appendEnd => exact key (.of_eq (by simp) (by simp))

/-- The term of a node never decreases. -/
theorem currentTerm_mono {ok : Cluster ν Cmd → Action ν Cmd → Prop} (h : Run (step M) ok s s')
    (n : ν) : (s.nodes n).raft.currentTerm ≤ (s'.nodes n).raft.currentTerm :=
  h.preorder (R := fun s s' => (s.nodes n).raft.currentTerm ≤ (s'.nodes n).raft.currentTerm)
    (fun _ => le_rfl) (fun _ _ _ h h' => h.trans h')
    (fun _ _ _ hstep => ((moves_of_step hstep).keepsVote n).1)

/-! ### The votes of a run -/

/-- `Granted s p c T`: the node `p` has voted for the candidate `c` in the term `T`, for itself
when it started an election or for another node in a granted reply. -/
def Granted (s : Cluster ν Cmd) (p c : ν) (T : ℕ) : Prop :=
  (p = c ∧ ∃ call ∈ s.voteCalls, call.candidateId = c ∧ call.term = T) ∨
    ∃ answer ∈ s.voteReplies, answer.voter = p ∧ answer.payload.candidateId = c ∧
      answer.payload.term = T ∧ answer.reply.voteGranted = true

/-- Calls and replies stay in the network. -/
theorem Moves.network_mono {a : Action ν Cmd} (h : Moves M s a s') :
    s.voteCalls ⊆ s'.voteCalls ∧ s.voteReplies ⊆ s'.voteReplies := by
  cases h <;> exact ⟨by simp [Cluster.set], by simp [Cluster.set]⟩

theorem Granted.step {a : Action ν Cmd} (h : Moves M s a s') {p c : ν} {T : ℕ}
    (hg : Granted s p c T) : Granted s' p c T := by
  obtain ⟨hcalls, hreplies⟩ := h.network_mono
  rcases hg with ⟨hp, call, hcall, hc⟩ | ⟨answer, hanswer, ha⟩
  · exact .inl ⟨hp, call, hcalls hcall, hc⟩
  · exact .inr ⟨answer, hreplies hanswer, ha⟩

theorem Granted.run {ok : Cluster ν Cmd → Action ν Cmd → Prop} (h : Run (Raft.step M) ok s s')
    {p c : ν} {T : ℕ} (hg : Granted s p c T) : Granted s' p c T :=
  h.preorder (R := fun s s' => Granted s p c T → Granted s' p c T) (fun _ h => h)
    (fun _ _ _ h h' => h' ∘ h) (fun _ _ _ hstep => Granted.step (moves_of_step hstep)) hg

/-- The vote of `p` in the term `T` is free before the step and is `c` after it. -/
def NewVote (node node' : RaftNode ν Cmd) (c : ν) (T : ℕ) : Prop :=
  node'.currentTerm = T ∧ node'.votedFor = some c ∧
    (node.currentTerm = T → node.votedFor = none ∨ node.votedFor = some c)

theorem newVote_handleRequestVote {node : RaftNode ν Cmd} {data : RequestVote ν}
    (h : (handleRequestVote node data).2.voteGranted = true) :
    NewVote node (handleRequestVote node data).1 data.candidateId data.term := by
  obtain ⟨hterm, hcan, -, hnode⟩ := handleRequestVote_granted node h
  refine ⟨?_, by rw [hnode], fun heq => ?_⟩
  · rw [handleRequestVote_currentTerm, max_eq_right hterm]
  · rwa [adoptTerm_of_le node heq.ge] at hcan

/-- **A step casts a vote only where the vote of that term is free.** -/
theorem Granted.of_step {a : Action ν Cmd} (h : Moves M s a s') {p c : ν} {T : ℕ}
    (hg : Granted s' p c T) :
    Granted s p c T ∨ NewVote (s.nodes p).raft (s'.nodes p).raft c T := by
  cases h with
  | @electionTimeout n hn hstate hidle =>
      rcases hg with ⟨rfl, call, hcall, hc, hT⟩ | hg
      · rcases List.mem_append.1 hcall with hcall | hcall
        · exact .inl (.inl ⟨rfl, call, hcall, hc, hT⟩)
        · obtain rfl := List.mem_singleton.1 hcall
          obtain rfl : n = p := hc
          -- the node is in a new term, where it has not voted
          have hfree : (s.nodes n).raft.currentTerm ≠ T := by
            rw [← hT]; exact (Nat.lt_succ_self _).ne
          refine .inr ⟨?_, ?_, fun heq => absurd heq hfree⟩
          · simpa [startElection] using hT
          · simp [startElection]
      · exact .inl (.inr hg)
  | @requestVote call voter payload hcall hvoter =>
      rcases hg with hg | ⟨answer, hanswer, rfl, rfl, rfl, hgranted⟩
      · exact .inl (.inl hg)
      · rcases List.mem_append.1 hanswer with hanswer | hanswer
        · exact .inl (.inr ⟨answer, hanswer, rfl, rfl, rfl, hgranted⟩)
        · obtain rfl := List.mem_singleton.1 hanswer
          refine .inr ?_
          simpa using newVote_handleRequestVote hgranted
  | electionWon => exact .inl hg
  | electionLost => exact .inl hg
  | appendEntry => exact .inl hg
  | heartbeat => exact .inl hg
  | heartbeatExit => exact .inl hg
  | replicateStart => exact .inl hg
  | appendEntries => exact .inl hg
  | replicateEnd => exact .inl hg
  | appendEnd => exact .inl hg

/-- The votes cast so far agree with the nodes: a vote of the current term is the one a node
remembers, and no node has voted for two candidates in one term. -/
structure VoteInv (s : Cluster ν Cmd) : Prop where
  term_le : ∀ {p c T}, Granted s p c T → T ≤ (s.nodes p).raft.currentTerm
  votedFor : ∀ {p c T}, Granted s p c T → (s.nodes p).raft.currentTerm = T →
    (s.nodes p).raft.votedFor = some c
  unique : ∀ {p c c' T}, Granted s p c T → Granted s p c' T → c = c'

omit [DecidableEq ν] in
theorem voteInv_initial : VoteInv (initial callback) := by
  have hnone : ∀ {p c : ν} {T : ℕ}, ¬ Granted (initial callback) p c T := by
    rintro p c T (⟨-, call, hcall, -⟩ | ⟨answer, hanswer, -⟩)
    · simp [initial] at hcall
    · simp [initial] at hanswer
  exact ⟨fun h => absurd h hnone, fun h => absurd h hnone, fun h => absurd h hnone⟩

omit [DecidableEq ν] in
/-- An old vote and a new one of the same node and term are for the same candidate. -/
theorem VoteInv.old_eq_new (hI : VoteInv s) {p c c' : ν} {T : ℕ} {node' : RaftNode ν Cmd}
    (hkeep : KeepsVote (s.nodes p).raft node') (hold : Granted s p c T)
    (hnew : NewVote (s.nodes p).raft node' c' T) : c = c' := by
  obtain ⟨hT, -, hfree⟩ := hnew
  have hle := hI.term_le hold
  have heq : (s.nodes p).raft.currentTerm = T := le_antisymm (hT ▸ hkeep.1) hle
  have hc := hI.votedFor hold heq
  rcases hfree heq with hf | hf <;> rw [hf] at hc
  · cases hc
  · exact (Option.some.inj hc).symm

theorem VoteInv.step {a : Action ν Cmd} (hI : VoteInv s) (h : Moves M s a s') : VoteInv s' where
  term_le := by
    intro p c T hg
    rcases hg.of_step h with hg | hnew
    · exact (hI.term_le hg).trans (h.keepsVote p).1
    · exact hnew.1.ge
  votedFor := by
    intro p c T hg heq
    rcases hg.of_step h with hg | hnew
    · have hkeep := h.keepsVote p
      have hold : (s.nodes p).raft.currentTerm = T :=
        le_antisymm (heq ▸ hkeep.1) (hI.term_le hg)
      exact hkeep.2 (hold.trans heq.symm) c (hI.votedFor hg hold)
    · exact hnew.2.1
  unique := by
    intro p c c' T hg hg'
    have hkeep := h.keepsVote p
    rcases hg.of_step h with hg | hnew <;> rcases hg'.of_step h with hg' | hnew'
    · exact hI.unique hg hg'
    · exact hI.old_eq_new hkeep hg hnew'
    · exact (hI.old_eq_new hkeep hg' hnew).symm
    · exact Option.some.inj (hnew.2.1.symm.trans hnew'.2.1)

/-- **The vote invariant holds in every run.** -/
theorem voteInv_run {ok : Cluster ν Cmd → Action ν Cmd → Prop}
    (h : Run (step M) ok (initial callback) s) : VoteInv s :=
  h.invariant (fun _ _ _ hI _ hstep => hI.step (moves_of_step hstep)) voteInv_initial

/-! ### Winning a term -/

/-- The candidate `c` has the votes of a majority for the term `T`. -/
def Won (M : Membership ν) (s : Cluster ν Cmd) (c : ν) (T : ℕ) : Prop :=
  ∃ Q, M.IsMajority Q ∧ ∀ p ∈ Q, Granted s p c T

theorem Won.run {ok : Cluster ν Cmd → Action ν Cmd → Prop} (h : Run (step M) ok s s') {c : ν}
    {T : ℕ} (hw : Won M s c T) : Won M s' c T := by
  obtain ⟨Q, hQ, hgranted⟩ := hw
  exact ⟨Q, hQ, fun p hp => (hgranted p hp).run h⟩

/-- **Two candidates with a majority in the same term are the same.** -/
theorem Won.unique (hI : VoteInv s) {c c' : ν} {T : ℕ} (h : Won M s c T) (h' : Won M s c' T) :
    c = c' := by
  obtain ⟨Q, hQ, hc⟩ := h
  obtain ⟨Q', hQ', hc'⟩ := h'
  obtain ⟨p, hp, hp'⟩ := hQ.inter hQ'
  exact hI.unique (hc p hp) (hc' p hp')

/-- The payload that a suspended `_start_election` keeps is the one it sent. -/
def ElectionInv (M : Membership ν) (s : Cluster ν Cmd) : Prop :=
  ∀ n payload, (s.nodes n).election = some payload →
    n ∈ M.nodes ∧ payload ∈ s.voteCalls ∧ payload.candidateId = n

omit [DecidableEq ν] in
theorem electionInv_initial : ElectionInv M (initial callback) := by
  intro n payload h
  cases h

theorem ElectionInv.step {a : Action ν Cmd} (hI : ElectionInv M s) (h : Moves M s a s') :
    ElectionInv M s' := by
  have hcalls := h.network_mono.1
  have hold : ∀ n payload, (s.nodes n).election = some payload →
      n ∈ M.nodes ∧ payload ∈ s'.voteCalls ∧ payload.candidateId = n := fun n payload hel =>
    let ⟨hn, hmem, hid⟩ := hI n payload hel
    ⟨hn, hcalls hmem, hid⟩
  -- where the frame of the election is not written, the old facts do
  have key : ∀ {n : ν} {p : Process ν Cmd}, (∀ payload, p.election = some payload →
      n ∈ M.nodes ∧ payload ∈ s'.voteCalls ∧ payload.candidateId = n) →
      ∀ m payload, ((s.set n p).nodes m).election = some payload →
        m ∈ M.nodes ∧ payload ∈ s'.voteCalls ∧ payload.candidateId = m := fun hp =>
    Cluster.set_forall (P := fun m p => ∀ payload, p.election = some payload →
      m ∈ M.nodes ∧ payload ∈ s'.voteCalls ∧ payload.candidateId = m) hold hp
  cases h with
  | electionTimeout hn =>
      refine key fun payload hel => ?_
      obtain rfl := Option.some.inj hel
      exact ⟨hn, by simp, rfl⟩
  | requestVote => exact key (hold _)
  | electionWon => exact key fun _ hel => by cases hel
  | electionLost => exact key fun _ hel => by cases hel
  | appendEntry => exact key (hold _)
  | heartbeat => exact key (hold _)
  | heartbeatExit => exact key (hold _)
  | replicateStart => exact key (hold _)
  | appendEntries => exact key (hold _)
  | replicateEnd => exact key (hold _)
  | appendEnd => exact key (hold _)

/-- A tally of `majority()` votes makes the candidate win the term of its payload. -/
theorem won_of_tally (hI : ElectionInv M s) {n : ν} {replies : List (ν × VoteReply)}
    {payload : RequestVote ν} (hel : (s.nodes n).election = some payload)
    (hnodup : (replies.map Prod.fst).Nodup)
    (hreplies : ∀ r ∈ replies, r.1 ∈ M.peers n ∧ ⟨payload, r.1, r.2⟩ ∈ s.voteReplies)
    (hwon : majority (M.peers n) ≤ countVotes (replies.map Prod.snd)) :
    Won M s n payload.term := by
  obtain ⟨hn, hcall, hid⟩ := hI n payload hel
  set voters := (replies.filter (·.2.voteGranted)).map Prod.fst with hvoters
  have hmem : ∀ p ∈ voters, ∃ r ∈ replies, r.1 = p ∧ r.2.voteGranted = true := by
    intro p hp
    obtain ⟨r, hr, hrp⟩ := List.mem_map.1 hp
    obtain ⟨hr, hg⟩ := List.mem_filter.1 hr
    exact ⟨r, hr, hrp, hg⟩
  have hlen : countVotes (replies.map Prod.snd) = 1 + voters.length := by
    rw [countVotes, List.countP_map, List.countP_eq_length_filter, hvoters, List.length_map]
    rfl
  refine ⟨insert n voters.toFinset, M.isMajority_insert hn ?_ ?_ (hlen ▸ hwon), ?_⟩
  · exact hnodup.sublist (List.filter_sublist.map _)
  · intro p hp
    obtain ⟨r, hr, rfl, -⟩ := hmem p hp
    exact (hreplies r hr).1
  · intro p hp
    rcases Finset.mem_insert.1 hp with rfl | hp
    · exact .inl ⟨rfl, payload, hcall, hid, rfl⟩
    · obtain ⟨r, hr, rfl, hg⟩ := hmem p (List.mem_toFinset.1 hp)
      exact .inr ⟨_, (hreplies r hr).2, rfl, hid, rfl, hg⟩

/-- The payload of every suspended `_start_election` is in the network. -/
theorem electionInv_run {ok : Cluster ν Cmd → Action ν Cmd → Prop}
    (h : Run (step M) ok (initial callback) s) : ElectionInv M s :=
  h.invariant (fun _ _ _ hI _ hstep => hI.step (moves_of_step hstep)) electionInv_initial

/-- In the state `s`, the `_start_election` of node `n` for the term `T` can end with the votes of
a majority. -/
def CompletesTally (M : Membership ν) (s : Cluster ν Cmd) (n : ν) (T : ℕ) : Prop :=
  ∃ replies payload, (step M s (.electionResult n replies)).isSome = true ∧
    (s.nodes n).election = some payload ∧ payload.term = T ∧
    majority (M.peers n) ≤ countVotes (replies.map Prod.snd)

/-- Whoever completes the tally of a term has won it. -/
theorem CompletesTally.won (hI : ElectionInv M s) {n : ν} {T : ℕ} (h : CompletesTally M s n T) :
    Won M s n T := by
  obtain ⟨replies, payload, hsome, hel, rfl, hmajority⟩ := h
  obtain ⟨s', hstep⟩ := Option.isSome_iff_exists.1 hsome
  cases moves_of_step hstep with
  | electionWon hel' hnodup hreplies hwon =>
      obtain rfl := Option.some.inj (hel.symm.trans hel')
      exact won_of_tally hI hel hnodup hreplies hwon
  | electionLost hel' hlost => omega

/-- **At most one winning candidacy for each term.**  Terms never decrease, a node votes for one
candidate in a term, and the tallies of a term that are completed at two moments of a run are
those of one node. -/
theorem oneCandidacy (h : Run (step M) anyAction (initial callback) s)
    (h' : Run (step M) anyAction s s') :
    (∀ n, (s.nodes n).raft.currentTerm ≤ (s'.nodes n).raft.currentTerm) ∧
      (∀ p c c' T, Granted s p c T → Granted s' p c' T → c = c') ∧
      ∀ n m T, CompletesTally M s n T → CompletesTally M s' m T → n = m := by
  have hV := voteInv_run (h.trans h')
  refine ⟨currentTerm_mono h', fun p c c' T hc hc' => ?_, fun n m T hn hm => ?_⟩
  · exact hV.unique (hc.run h') hc'
  · have hwn := Won.run h' (hn.won (electionInv_run h))
    exact hwn.unique hV (hm.won (electionInv_run (h.trans h')))

/-! ### Leaders -/

/-- A node that is leader afterwards was leader before, in the same term. -/
def KeepsLeader (node node' : RaftNode ν Cmd) : Prop :=
  node'.state = .leader → node.state = .leader ∧ node'.currentTerm = node.currentTerm

theorem keepsLeader_handleRequestVote (node : RaftNode ν Cmd) (data : RequestVote ν) :
    KeepsLeader node (handleRequestVote node data).1 := by
  intro hleader
  rw [handleRequestVote_state] at hleader
  split at hleader
  · cases hleader
  · next hterm =>
      exact ⟨hleader, by rw [handleRequestVote_currentTerm, max_eq_left (not_lt.1 hterm)]⟩

omit [DecidableEq ν] in
theorem keepsLeader_handleAppendEntries (node : RaftNode ν Cmd) (data : AppendEntries ν Cmd) :
    KeepsLeader node (handleAppendEntries node data).1 := by
  intro hstate
  rcases lt_or_ge data.term node.currentTerm with h | h
  · rw [handleAppendEntries_of_stale node h] at hstate ⊢
    exact ⟨hstate, rfl⟩
  · rw [handleAppendEntries_state node h] at hstate
    cases hstate

/-- **A node only becomes leader by winning a tally.** -/
theorem Moves.leader {a : Action ν Cmd} (h : Moves M s a s') (m : ν) :
    KeepsLeader (s.nodes m).raft (s'.nodes m).raft ∨
      (s'.nodes m).raft.currentTerm = (s.nodes m).raft.currentTerm ∧
        ∃ replies payload, a = .electionResult m replies ∧
          (s.nodes m).election = some payload ∧ (replies.map Prod.fst).Nodup ∧
          (∀ r ∈ replies, r.1 ∈ M.peers m ∧ ⟨payload, r.1, r.2⟩ ∈ s.voteReplies) ∧
          majority (M.peers m) ≤ countVotes (replies.map Prod.snd) := by
  have key : ∀ {n : ν} {p : Process ν Cmd}, KeepsLeader (s.nodes n).raft p.raft →
      KeepsLeader (s.nodes m).raft ((s.set n p).nodes m).raft := fun hp =>
    Cluster.set_rel (R := fun p p' => KeepsLeader p.raft p'.raft) (fun _ h => ⟨h, rfl⟩) hp m
  cases h with
  | electionTimeout => exact .inl (key fun h => by cases h)
  | requestVote => exact .inl (key (keepsLeader_handleRequestVote _ _))
  | @electionWon n replies payload hel hnodup hreplies hwon =>
      by_cases hm : m = n
      · subst hm
        exact .inr ⟨by simp [Process.won, becomeLeader],
          replies, payload, rfl, hel, hnodup, hreplies, hwon⟩
      · exact .inl fun h => by simpa [hm] using h
  | electionLost => exact .inl (key fun h => ⟨h, rfl⟩)
  | appendEntry => exact .inl (key fun h => ⟨h, rfl⟩)
  | heartbeat => exact .inl (key fun h => ⟨h, rfl⟩)
  | heartbeatExit => exact .inl (key fun h => ⟨h, rfl⟩)
  | replicateStart => exact .inl (key fun h => ⟨h, rfl⟩)
  | appendEntries => exact .inl (key (keepsLeader_handleAppendEntries _ _))
  | replicateEnd => exact .inl (key fun h => ⟨by simpa using h, by simp⟩)
  | appendEnd => exact .inl (key fun h => ⟨by simpa using h, by simp⟩)

/-- A tally that reaches the majority is completed while the node is still in the term of the
payload it sent. -/
def TallyInTerm (M : Membership ν) (s : Cluster ν Cmd) : Action ν Cmd → Prop
  | .electionResult n replies =>
      majority (M.peers n) ≤ countVotes (replies.map Prod.snd) →
        ∀ payload ∈ (s.nodes n).election, (s.nodes n).raft.currentTerm = payload.term
  | _ => True

instance (s : Cluster ν Cmd) : DecidablePred (TallyInTerm M s)
  | .electionResult _ _ => inferInstanceAs (Decidable (_ → _))
  | .electionTimeout _ | .requestVote _ _ | .appendEntry _ _ | .heartbeat _ | .replicateStart _ _
  | .appendEntries _ | .replicateEnd _ _ _ | .appendEnd _ _ => .isTrue trivial

/-- Every leader has won its current term. -/
def LeaderInv (M : Membership ν) (s : Cluster ν Cmd) : Prop :=
  ∀ n, (s.nodes n).raft.state = .leader → Won M s n (s.nodes n).raft.currentTerm

theorem LeaderInv.step {a : Action ν Cmd} (hI : LeaderInv M s) (hE : ElectionInv M s)
    (hok : TallyInTerm M s a) (hstep : Raft.step M s a = some s') : LeaderInv M s' := by
  intro n hn
  have h := moves_of_step hstep
  have hrun : Run (Raft.step M) anyAction s s' := .single trivial hstep
  refine Won.run hrun ?_
  rcases h.leader n with hkeep | ⟨hterm, replies, payload, rfl, hel, hnodup, hreplies, hwon⟩
  · obtain ⟨hleader, hterm⟩ := hkeep hn
    rw [hterm]
    exact hI n hleader
  · rw [hterm, hok hwon payload hel]
    exact won_of_tally hE hel hnodup hreplies hwon

/-- When tallies are won in their own term, every leader has won its term. -/
theorem leaderInv_run {ok : Cluster ν Cmd → Action ν Cmd → Prop}
    (hok : ∀ s a, ok s a → TallyInTerm M s a) (h : Run (Raft.step M) ok (initial callback) s) :
    LeaderInv M s := by
  have hboth := h.invariant (I := fun s => ElectionInv M s ∧ LeaderInv M s)
    (fun _ _ _ hI hs hstep =>
      ⟨hI.1.step (moves_of_step hstep), hI.2.step hI.1 (hok _ _ hs) hstep⟩)
    ⟨electionInv_initial, fun n hn => by cases hn⟩
  exact hboth.2

/-- **Election safety.**  When no tally is won after the node has left the term it was started in,
two nodes that are leader in the same term, at two moments of a run, are the same node. -/
theorem electionSafety (h : Run (Raft.step M) (TallyInTerm M) (initial callback) s)
    (h' : Run (Raft.step M) (TallyInTerm M) s s') {n m : ν}
    (hn : (s.nodes n).raft.state = .leader) (hm : (s'.nodes m).raft.state = .leader)
    (hterm : (s.nodes n).raft.currentTerm = (s'.nodes m).raft.currentTerm) : n = m := by
  have hwn := Won.run h' (leaderInv_run (fun _ _ h => h) h n hn)
  have hwm := leaderInv_run (fun _ _ h => h) (h.trans h') m hm
  rw [hterm] at hwn
  exact hwn.unique (voteInv_run (h.trans h')) hwm

/-! ### A stale tally -/

/-- A callback that always returns. -/
def returning (_ : Fin 3) : ApplyCallback ℕ := fun _ _ => true

/-- Numerals name the nodes of a cluster of three. -/
instance nodeOfNat (i : ℕ) : OfNat (Fin 3) i := ⟨Fin.ofNat 3 i⟩

/-- A cluster of three nodes. -/
def trio : Membership (Fin 3) where
  nodes := [0, 1, 2]
  nodup := by decide
  peers := fun n => [0, 1, 2].filter (· ≠ n)
  peers_perm := by decide

/-- Node 0 asks for votes in term 1 and gets those of 1 and 2; node 2 then starts the election of
term 2 and gets the vote of 0, which brings 0 to term 2 before its own tally is complete. -/
def twoElections : List (Action (Fin 3) ℕ) :=
  [.electionTimeout 0, .requestVote 0 1, .requestVote 0 2,
    .electionTimeout 2, .requestVote 1 0,
    .electionResult 2 [(0, ⟨2, true⟩)]]

/-- After the first three steps node 0 can complete the tally of term 1; node 0 is in term 2 at the
end of the run, and still nobody else can complete a tally of term 1. -/
theorem oneCandidacy_twoElections :
    ∃ s s' : Cluster (Fin 3) ℕ, Run (Raft.step trio) anyAction (initial returning) s ∧
      Run (Raft.step trio) anyAction s s' ∧ CompletesTally trio s 0 1 ∧
      (s'.nodes 0).raft.currentTerm = 2 ∧ (s.nodes 0).raft.currentTerm ≤ 2 ∧
      Granted s 1 0 1 ∧ (∀ c, Granted s' 1 c 1 → 0 = c) ∧
      ∀ m, CompletesTally trio s' m 1 → 0 = m := by
  let tally : List (Fin 3 × VoteReply) := [(1, ⟨1, true⟩), (2, ⟨1, true⟩)]
  let payload : RequestVote (Fin 3) := ⟨1, 0, -1, 0⟩
  obtain ⟨s, hs, ⟨hsome, hel, hreply⟩, hlater⟩ := Run.exists_of_exec (Raft.step trio) anyAction
    (initial returning) (twoElections.take 3)
    (fun s => ((Raft.step trio s (.electionResult 0 tally)).isSome = true ∧
      (s.nodes 0).election = some payload ∧
      (⟨payload, 1, ⟨1, true⟩⟩ : VoteAnswer (Fin 3)) ∈ s.voteReplies) ∧
      ((exec (Raft.step trio) anyAction s (twoElections.drop 3)).any
        fun s' => decide ((s'.nodes 0).raft.currentTerm = 2)) = true) (by decide)
  obtain ⟨s', hs', hterm⟩ := Run.exists_of_exec (Raft.step trio) anyAction s
    (twoElections.drop 3) (fun s' => (s'.nodes 0).raft.currentTerm = 2) hlater
  have htally : CompletesTally trio s 0 1 := ⟨tally, payload, hsome, hel, rfl, by decide⟩
  have hgranted : Granted s 1 0 1 := .inr ⟨_, hreply, rfl, rfl, rfl, rfl⟩
  obtain ⟨hmono, hvote, hunique⟩ := oneCandidacy hs hs'
  exact ⟨s, s', hs, hs', htally, hterm, hterm ▸ hmono 0, hgranted, fun c => hvote 1 0 c 1 hgranted,
    fun m => hunique 0 m 1 htally⟩

/-- The tally of node 0 ends last: it becomes leader in term 2, next to node 2. -/
def staleTally : List (Action (Fin 3) ℕ) :=
  twoElections ++ [.electionResult 0 [(1, ⟨1, true⟩), (2, ⟨1, true⟩)]]

/-- Two nodes can be leader in the same term. -/
theorem electionSafety_fails :
    ¬ ∀ s : Cluster (Fin 3) ℕ, Run (Raft.step trio) anyAction (initial returning) s →
      ∀ n m, (s.nodes n).raft.state = .leader → (s.nodes m).raft.state = .leader →
        (s.nodes n).raft.currentTerm = (s.nodes m).raft.currentTerm → n = m := by
  intro hall
  obtain ⟨s, hs, h0, h2, hterm⟩ := Run.exists_of_exec (Raft.step trio) anyAction
    (initial returning) staleTally
    (fun s => (s.nodes 0).raft.state = .leader ∧ (s.nodes 2).raft.state = .leader ∧
      (s.nodes 0).raft.currentTerm = (s.nodes 2).raft.currentTerm) (by decide)
  exact absurd (hall s hs 0 2 h0 h2 hterm) (by decide)

/-- In the run of `twoElections` node 2 is the only leader of its term. -/
theorem electionSafety_twoElections :
    ∃ s : Cluster (Fin 3) ℕ, Run (Raft.step trio) (TallyInTerm trio) (initial returning) s ∧
      (s.nodes 2).raft.state = .leader ∧ ∀ m, (s.nodes m).raft.state = .leader →
        (s.nodes 2).raft.currentTerm = (s.nodes m).raft.currentTerm → 2 = m := by
  obtain ⟨s, hs, h2⟩ := Run.exists_of_exec (Raft.step trio) (TallyInTerm trio)
    (initial returning) twoElections (fun s => (s.nodes 2).raft.state = .leader) (by decide)
  exact ⟨s, hs, h2, fun m hm hterm => electionSafety hs (.refl s) h2 hm hterm⟩

end Raft
