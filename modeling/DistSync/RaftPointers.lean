/-
**Apply pointers stay inside the log, and what is committed is not rewritten.**

Three places raise `commit_index`: `handle_append_entries` takes it from a leader's message,
`_advance_commit_index` from a count of `match_index`, and `append_entry` from the index that its
entry had before the await.  One place truncates the log, `handle_append_entries` again, and it does
not look at `commit_index`.  So nothing a node does by itself keeps the committed entries: a payload
that conflicts with one of them would overwrite it.  In the runs where coroutines go on in their
terms (`Raft.InTerm`) no leader sends such a payload, since what a node has committed is in the logs
of all later leaders.

Main definitions:

* `Raft.PointersInLog` — `last_applied` is at most `commit_index`, an index of the log;
* `Raft.KeepsCommitted` — `commit_index` does not go down, and the entries up to it stay;
* `Raft.AdvancesInLog` — `_advance_commit_index` reads an index of the log.

Main results:

* `Raft.KeepsCommitted.of_moves` — **no step takes back what is committed**;
* `Raft.committedStays`, `Raft.committedStays_fails`.
-/

import DistSync.RaftSafety

set_option relaxedAutoImplicit false
set_option autoImplicit false

namespace Raft

open Runs TermLog TermConsensus

variable {ν Cmd : Type} {node node' node'' : RaftNode ν Cmd}

/-! ### What a node keeps -/

/-- The two pointers are indexes of the log, or -1. -/
def PointersInLog (node : RaftNode ν Cmd) : Prop :=
  -1 ≤ node.lastApplied ∧ node.lastApplied ≤ node.commitIndex ∧
    node.commitIndex < node.log.length

theorem AppliedInv.pointersInLog (h : AppliedInv node) : PointersInLog node := ⟨h.ge, h.le, h.lt⟩

/-- `commit_index` does not go down, and the entries up to it stay what they are. -/
def KeepsCommitted (node node' : RaftNode ν Cmd) : Prop :=
  node.commitIndex ≤ node'.commitIndex ∧
    ∀ i : ℕ, (i : ℤ) ≤ node.commitIndex → node'.log[i]? = node.log[i]?

namespace KeepsCommitted

theorem refl (node : RaftNode ν Cmd) : KeepsCommitted node node := ⟨le_rfl, fun _ _ => rfl⟩

theorem trans (h : KeepsCommitted node node') (h' : KeepsCommitted node' node'') :
    KeepsCommitted node node'' :=
  ⟨h.1.trans h'.1, fun i hi => (h'.2 i (hi.trans h.1)).trans (h.2 i hi)⟩

theorem of_log_eq (hcommit : node.commitIndex ≤ node'.commitIndex)
    (hlog : node'.log = node.log) : KeepsCommitted node node' :=
  ⟨hcommit, fun i _ => by rw [hlog]⟩

/-- The log may change behind what is committed. -/
theorem of_isPrefix (h : AppliedInv node) (hcommit : node.commitIndex ≤ node'.commitIndex)
    (hlog : node.log.take (node.commitIndex + 1).toNat <+: node'.log) :
    KeepsCommitted node node' := by
  refine ⟨hcommit, fun i hi => ?_⟩
  have hlt := h.lt
  have hlen : i < node.log.length := by omega
  have hget : (node.log.take (node.commitIndex + 1).toNat)[i]? = some node.log[i] := by
    rw [List.getElem?_take_of_lt (by omega), List.getElem?_eq_getElem hlen]
  rw [getElem?_of_isPrefix hlog hget, List.getElem?_eq_getElem hlen]

theorem applyCommitted (node : RaftNode ν Cmd) :
    KeepsCommitted node (Raft.applyCommitted node).1 :=
  of_log_eq (applyCommitted_commitIndex node).ge (applyCommitted_log node)

/-- `_advance_commit_index` only raises `commit_index`. -/
theorem advanceCommitIndex (peers : List ν) (node : RaftNode ν Cmd) :
    KeepsCommitted node (Raft.advanceCommitIndex peers node).1 := by
  rcases advanceCommitIndex_cases peers node with hsame | hsame | ⟨m, -, hrise, -, -, -, hsame⟩
  · rw [hsame]
    exact refl node
  · rw [hsame]
    exact applyCommitted node
  · rw [hsame]
    have hraise : KeepsCommitted node { node with commitIndex := m } := of_log_eq hrise.le rfl
    exact hraise.trans (applyCommitted _)

/-- So does the last stretch of `append_entry`. -/
theorem commitEntry (node : RaftNode ν Cmd) (entryIndex : ℕ) :
    KeepsCommitted node (Raft.commitEntry node entryIndex).1 := by
  have hraise : KeepsCommitted node { node with
      commitIndex := if node.commitIndex < entryIndex then entryIndex else node.commitIndex } := by
    refine of_log_eq ?_ rfl
    simp only
    split
    · next hlt => exact hlt.le
    · exact le_rfl
  exact hraise.trans (applyCommitted _)

theorem concludeAppend (peers : List ν) (node : RaftNode ν Cmd) (entryIndex : ℕ)
    (successes : Option ℕ) :
    KeepsCommitted node (Raft.concludeAppend peers node entryIndex successes).1 := by
  have hadvance := advanceCommitIndex peers node
  cases successes with
  | none => exact refl node
  | some k =>
      simp only [Raft.concludeAppend]
      split
      · split
        · next heq =>
            rw [heq] at hadvance
            exact hadvance
        · next heq =>
            rw [heq] at hadvance
            exact hadvance.trans (commitEntry _ _)
      · exact refl node

end KeepsCommitted

/-- A payload whose `leader_commit` is an index of the new log does not lower `commit_index`. -/
theorem le_commitIndex_storeEntries {data : AppendEntries ν Cmd}
    (h : data.leaderCommit < (storeEntries node data).log.length) :
    node.commitIndex ≤ (storeEntries node data).commitIndex := by
  simp only [storeEntries] at h ⊢
  split
  · omega
  · exact le_rfl

/-! ### Steps of the cluster -/

section Cluster

variable [DecidableEq ν] {M : Membership ν} {s s' : Cluster ν Cmd} {t : History ν Cmd} {n : ν}
  {callback : ν → ApplyCallback Cmd}

/-- **A payload of a leader keeps what the receiver has committed.** -/
theorem Tracks.keepsCommitted (hT : Tracks M t s) (hI : Inv M.quorums LogEntry.term t)
    {call : ℕ} {payload : AppendEntries ν Cmd} (hcall : s.appendCalls[call]? = some ⟨n, payload⟩) :
    KeepsCommitted (s.nodes n).raft (handleAppendEntries (s.nodes n).raft payload).1 := by
  have hvote := hT.vote n
  rcases lt_or_ge payload.term (s.nodes n).raft.currentTerm with hstale | hle
  · rw [handleAppendEntries_of_stale _ hstale]
    exact .refl _
  · cases hprev : prevMatches (s.nodes n).raft.log payload.prevLogIndex payload.prevLogTerm with
    | false =>
        rw [handleAppendEntries_of_mismatch _ hle hprev]
        exact .of_log_eq le_rfl rfl
    | true =>
        obtain ⟨l, L, next, hl, -, hL, hsnap, hlt, -⟩ :=
          hT.copyNet.call _ (List.mem_of_getElem? hcall)
        have hgrounded := (hI.lead _ l hl).grounded.of_isPrefix hL
        obtain ⟨-, hlog⟩ := log_storeEntries
          (acceptLeader (s.nodes n).raft payload.term payload.leaderId) hsnap
          (hvote.log ▸ hI.log_grounded n) hgrounded
          (fun e he => hI.pos_of_mem_log (p := n) (hvote.log ▸ he)) hprev
        rw [acceptLeader_log] at hlog
        have hkeep := (hT.commit n).take_isPrefix_overlay hI (hvote.term ▸ hle) hl hL
        rw [handleAppendEntries_of_match _ hle hprev]
        refine KeepsCommitted.trans (.of_isPrefix (hT.commit n).applied ?_ (hlog ▸ hkeep))
          (.applyCommitted _)
        -- `leader_commit` is an index of the log that the node has now
        have hlen := (prefix_overlay : L <+: overlay (s.nodes n).raft.log L).length_le
        rw [← hlog] at hlen
        exact le_commitIndex_storeEntries (hlt.trans_le (Int.ofNat_le.2 hlen))

/-- **No step takes back what is committed**, when the cluster has a history. -/
theorem KeepsCommitted.of_moves (hT : Tracks M t s) (hI : Inv M.quorums LogEntry.term t)
    {a : Action ν Cmd} (h : Moves M s a s') (m : ν) :
    KeepsCommitted (s.nodes m).raft (s'.nodes m).raft := by
  have key : ∀ {n : ν} {p : Process ν Cmd}, KeepsCommitted (s.nodes n).raft p.raft →
      KeepsCommitted (s.nodes m).raft ((s.set n p).nodes m).raft := fun hp =>
    Cluster.set_rel (R := fun p p' => KeepsCommitted p.raft p'.raft) (fun p => .refl p.raft) hp m
  cases h with
  | electionTimeout => exact key (.of_log_eq le_rfl rfl)
  | requestVote =>
      refine key (.of_log_eq ?_ (handleRequestVote_log _ _))
      exact (handleRequestVote_frame _ (·.commitIndex) (fun _ _ _ _ => rfl) _).ge
  | electionWon => exact key (.of_log_eq le_rfl rfl)
  | electionLost => exact key (.refl _)
  | appendEntry =>
      refine key (.of_isPrefix (hT.commit _).applied le_rfl ?_)
      exact (List.take_prefix _ _).trans (List.prefix_append _ _)
  | heartbeat => exact key (.refl _)
  | heartbeatExit => exact key (.refl _)
  | replicateStart => exact key (.refl _)
  | appendEntries hcall => exact key (hT.keepsCommitted hI hcall)
  | replicateEnd =>
      refine key (.of_log_eq ?_ (replicateReply_log _ _ _ _ _))
      exact (replicateReply_frame _ _ _ _ _ (·.commitIndex) fun _ _ _ => rfl).ge
  | appendEnd => exact key (.concludeAppend _ _ _ _)

theorem keepsCommitted_run (h : Run (Raft.step M) (InTerm M) (initial callback) s)
    (h' : Run (Raft.step M) (InTerm M) s s') (n : ν) :
    KeepsCommitted (s.nodes n).raft (s'.nodes n).raft := by
  induction h' with
  | refl => exact .refl _
  | tail hrun _ hstep ih =>
      obtain ⟨t, hI, hT⟩ := exists_history (h.trans hrun)
      exact ih.trans (.of_moves hT hI (moves_of_step hstep) n)

/-! ### Reading the log at the majority index -/

/-- Wherever an allowed conclusion of `append_entry` calls `_advance_commit_index`, this gets to
`_apply_committed` with `commit_index` in the log: it reads the log at no other index. -/
def AdvancesInLog (M : Membership ν) (s : Cluster ν Cmd) (n : ν) : Prop :=
  ∀ id frame k, (s.nodes n).appends.find? (·.id = id) = some frame →
    replicateLog ((s.nodes n).outcomes id) = some k → majority (M.peers n) ≤ k →
    InTerm M s (.appendEnd n id) →
    ∃ m, (s.nodes n).raft.commitIndex ≤ m ∧ m < (s.nodes n).raft.log.length ∧
      advanceCommitIndex (M.peers n) (s.nodes n).raft =
        applyCommitted { (s.nodes n).raft with commitIndex := m }

omit [DecidableEq ν] in
/-- When no `match_index` is beyond the log, neither is the majority index. -/
theorem advanceCommitIndex_inLog {peers : List ν} (h : AppliedInv node)
    (hmatch : ∀ peer ∈ peers, node.matchIndex peer < node.log.length) :
    ∃ m, node.commitIndex ≤ m ∧ m < node.log.length ∧
      advanceCommitIndex peers node = applyCommitted { node with commitIndex := m } := by
  have hge := h.ge
  have hle := h.le
  unfold advanceCommitIndex
  simp only
  split
  · next hnone =>
      -- the list has one element more than there are peers
      rw [List.getElem?_eq_none_iff, List.length_insertionSort, List.length_append,
        List.length_map, List.length_singleton, majority] at hnone
      omega
  · next m hm =>
      have hlt : m < node.log.length := by
        have hmem := (List.mem_insertionSort _).1 (List.mem_of_getElem? hm)
        rcases List.mem_append.1 hmem with hmem | hmem
        · obtain ⟨peer, hpeer, rfl⟩ := List.mem_map.1 hmem
          exact hmatch peer hpeer
        · rw [List.mem_singleton.1 hmem]
          omega
      split
      · next hrise =>
          split
          · next hnone =>
              rw [List.getElem?_eq_none_iff] at hnone
              omega
          · split
            · exact ⟨m, hrise.le, hlt, rfl⟩
            · exact ⟨node.commitIndex, le_rfl, h.lt, rfl⟩
      · exact ⟨node.commitIndex, le_rfl, h.lt, rfl⟩

/-- A conclusion that goes on in the term of its entry is one of the leader of this term. -/
theorem Tracks.advancesInLog (hT : Tracks M t s) (hI : Inv M.quorums LogEntry.term t) (n : ν) :
    AdvancesInLog M s n := by
  intro id frame k hframe hk hmajority hok
  have hvote := hT.vote n
  obtain ⟨l, hl, hleader, -⟩ := (hT.copy n).frame frame (List.mem_of_find?_eq_some hframe)
  have hterm : t.term n = frame.entry.term := hvote.term ▸ hok k hk hmajority frame hframe
  rw [← hterm] at hl
  refine advanceCommitIndex_inLog (hT.commit n).applied fun peer hpeer => ?_
  -- what a peer has acknowledged is in the log of the leader
  have hacked := (hT.copy n).matchIndex ⟨l, hl, hleader⟩ peer hpeer
  have hle := hI.acked_le peer (t.term n)
  rw [canon_of_lead hl, ← hT.own hI hl hleader] at hle
  omega

/-- **What is committed stays.**  When coroutines go on in the term in which they were suspended,
the pointers of a node are in its log, `_advance_commit_index` reads nothing outside of it, and
between two moments of a run `commit_index` does not go down and no entry up to it changes. -/
theorem committedStays (h : Run (Raft.step M) (InTerm M) (initial callback) s)
    (h' : Run (Raft.step M) (InTerm M) s s') (n : ν) :
    PointersInLog (s.nodes n).raft ∧ AdvancesInLog M s n ∧
      KeepsCommitted (s.nodes n).raft (s'.nodes n).raft := by
  obtain ⟨t, hI, hT⟩ := exists_history h
  exact ⟨(hT.commit n).applied.pointersInLog, hT.advancesInLog hI n, keepsCommitted_run h h' n⟩

end Cluster

/-! ### A committed entry that is overwritten -/

/-- Node 0 leads term 1 and appends a command, but its tasks have not started when node 2 wins
term 2 and its heartbeat reaches node 0.  The first task then speaks for term 2, node 1 takes the
entry, and the call of `append_entry` ends with a majority. -/
def lateCommit : List (Action (Fin 3) ℕ) :=
  [.electionTimeout 0, .requestVote 0 1, .requestVote 0 2, .electionResult 0 [(1, ⟨1, true⟩)],
    .appendEntry 0 7, .electionTimeout 2, .requestVote 1 1, .electionResult 2 [(1, ⟨2, true⟩)],
    .heartbeat 2, .replicateStart 2 0, .appendEntries 0, .replicateStart 0 0, .appendEntries 1,
    .replicateEnd 0 0 (some ⟨2, true⟩), .appendEnd 0 0]

/-- The leader of term 2 does not have that entry, and overwrites it at node 0. -/
def overwrite : List (Action (Fin 3) ℕ) :=
  [.appendEntry 2 8, .replicateStart 2 2, .appendEntries 2]

/-- Node 0 can lose a committed entry. -/
theorem committedStays_fails :
    ¬ ∀ s s' : Cluster (Fin 3) ℕ, Run (Raft.step trio) anyAction (initial returning) s →
      Run (Raft.step trio) anyAction s s' → ∀ n, PointersInLog (s.nodes n).raft ∧
        KeepsCommitted (s.nodes n).raft (s'.nodes n).raft := by
  intro hall
  obtain ⟨s, hs, ⟨hcommit, hlog⟩, hlater⟩ := Run.exists_of_exec (Raft.step trio) anyAction
    (initial returning) lateCommit
    (fun s => ((s.nodes 0).raft.commitIndex = 0 ∧ (s.nodes 0).raft.log = [⟨1, 7⟩]) ∧
      ((exec (Raft.step trio) anyAction s overwrite).any
        fun s' => decide ((s'.nodes 0).raft.log = [⟨2, 8⟩])) = true) (by decide)
  obtain ⟨s', hs', hlog'⟩ := Run.exists_of_exec (Raft.step trio) anyAction s overwrite
    (fun s' => (s'.nodes 0).raft.log = [⟨2, 8⟩]) hlater
  have hkeep := (hall s s' hs hs' 0).2.2 0 hcommit.ge
  rw [hlog, hlog'] at hkeep
  exact absurd hkeep (by decide)

/-- In the run of `appliedTwice` node 0 commits its entry, and keeps it. -/
theorem committedStays_appliedTwice :
    ∃ s s' : Cluster (Fin 3) ℕ, Run (Raft.step trio) (InTerm trio) (initial returning) s ∧
      Run (Raft.step trio) (InTerm trio) s s' ∧ (s.nodes 0).raft.commitIndex = 0 ∧
      (s'.nodes 0).raft.log[0]? = (s.nodes 0).raft.log[0]? ∧ PointersInLog (s.nodes 0).raft := by
  obtain ⟨s, hs, hcommit, hlater⟩ := Run.exists_of_exec (Raft.step trio) (InTerm trio)
    (initial returning) (appliedTwice.take 8) (fun s => (s.nodes 0).raft.commitIndex = 0 ∧
      (exec (Raft.step trio) (InTerm trio) s (appliedTwice.drop 8)).isSome = true) (by decide)
  obtain ⟨s', hexec⟩ := Option.isSome_iff_exists.1 hlater
  have hs' := Run.of_exec _ hexec
  obtain ⟨hpointers, -, hkeep⟩ := committedStays hs hs' 0
  exact ⟨s, s', hs, hs', hcommit, hkeep.2 0 hcommit.ge, hpointers⟩

end Raft
