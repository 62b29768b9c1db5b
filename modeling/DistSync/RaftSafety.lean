/-
**What is acknowledged stays, and nodes apply the same commands.**

Several coroutines of a node act after an await as if nothing had happened in between.  A tally that
is completed in a later term makes the node leader of a term it has not won; a replication task that
starts when the node is not leader any more speaks for a term of somebody else; a successful reply
to a payload of an earlier term raises `match_index` in a term whose log the peer may not have; and
`append_entry` raises `commit_index` to an index at which the log may have another entry by then.
In the runs where they go on in the term in which they were suspended (`Raft.InTerm`) the cluster
has a history (`Raft.follows_of_run`), and what `append_entry` has acknowledged, or a node has
applied, is chosen in it.

Main definitions:

* `Raft.InTerm` — coroutines go on in the term in which they were suspended;
* `Raft.lockTable` — the lock table of a replica.

Main results:

* `Raft.follows_of_run` — **the cluster refines consensus by terms**;
* `Raft.stateMachineSafety`, `Raft.stateMachineSafety_fails` — **no two nodes apply different
  commands at an index**;
* `Raft.leaderCompleteness`, `Raft.leaderCompleteness_fails` — **an acknowledged command is in the
  logs of all later leaders**.
-/

import DistSync.LockMachine
import DistSync.RaftCopies

set_option relaxedAutoImplicit false
set_option autoImplicit false

namespace Raft

open Runs TermLog TermConsensus

variable {ν Cmd : Type}

/-! ### Committing as a leader -/

section Conclude

variable [DecidableEq ν] {M : Membership ν} {s s' : Cluster ν Cmd} {t : History ν Cmd} {n : ν}
  {l : Lead ν (LogEntry Cmd)} {T i : ℕ} {e : LogEntry Cmd} {node : RaftNode ν Cmd}

/-- **What a majority has is chosen**, if it ends with an entry of the leader's term. -/
theorem chosen_of_copies (hI : Inv M.quorums LogEntry.term t) (hl : t.lead T = some l)
    (hi : l.log[i]? = some e) (he : e.term = T) {Q : Finset ν} (hQ : M.IsMajority Q)
    (hcopies : ∀ q ∈ Q, q = l.leader ∨ i < t.acked q T) :
    Chosen M.quorums LogEntry.term t T (l.log.take (i + 1)) := by
  have hcanon := canon_of_lead hl
  refine ⟨Q, hQ, fun q hq => ⟨i, e, hcanon ▸ hi, he, ?_, by rw [hcanon]⟩⟩
  rcases hcopies q hq with rfl | hlt
  · exact (List.getElem?_eq_some_iff.1 hi).1.trans_le (hI.lead T l hl).acked
  · exact hlt

/-- A node may commit what is chosen. -/
theorem CommitTracks.commit (h : CommitTracks M t n node) (hi : node.commitIndex ≤ i)
    (hlen : i < node.log.length)
    (hX : Chosen M.quorums LogEntry.term t (t.term n) (node.log.take (i + 1))) :
    CommitTracks M t n { node with commitIndex := i } := by
  refine ⟨h.applied.of_isPrefix (List.take_prefix _ _) hi (Int.ofNat_lt.2 hlen) rfl rfl, fun _ => ?_⟩
  have hnat : ((i : ℤ) + 1).toNat = i + 1 := by omega
  simp only [hnat]
  exact ⟨_, _, le_rfl, hX, List.prefix_refl _⟩

/-- **`_advance_commit_index` commits what is chosen**, at the leader of a term. -/
theorem CommitTracks.advance (h : CommitTracks M t n node) (hI : Inv M.quorums LogEntry.term t)
    (hn : n ∈ M.nodes) (hterm : node.currentTerm = t.term n) (hl : t.lead (t.term n) = some l)
    (hleader : l.leader = n) (hlog : node.log = l.log)
    (hmatch : ∀ peer ∈ M.peers n, node.matchIndex peer < t.acked peer (t.term n)) :
    CommitTracks M t n (advanceCommitIndex (M.peers n) node).1 := by
  rcases advanceCommitIndex_cases (M.peers n) node with hsame | hsame |
    ⟨m, entry, hrise, hentry, hentryTerm, hcount, hsame⟩
  · rw [hsame]
    exact h
  · rw [hsame]
    exact h.apply
  · rw [hsame]
    have hge := h.applied.ge
    have hle := h.applied.le
    obtain ⟨i, rfl⟩ : ∃ i : ℕ, m = i := ⟨m.toNat, by omega⟩
    rw [Int.toNat_natCast, hlog] at hentry
    have hlen := (List.getElem?_eq_some_iff.1 hentry).1
    have hmajority := M.isMajority_insert hn ((nodup_peers hn).filter _)
      (fun p hp => List.mem_of_mem_filter hp) hcount
    refine (h.commit (by omega) (hlog ▸ hlen) ?_).apply
    rw [hlog]
    refine chosen_of_copies hI hl hentry (hentryTerm.trans hterm) hmajority fun q hq => ?_
    rcases Finset.mem_insert.1 hq with rfl | hq
    · exact .inl hleader.symm
    · obtain ⟨hpeer, hle'⟩ := List.mem_filter.1 (List.mem_toFinset.1 hq)
      -- `match_index` of the peer is an acknowledgement of the entry
      have hlt := hmatch q hpeer
      have hle'' := of_decide_eq_true hle'
      exact .inr (by omega)

/-- The last stretch of `append_entry` commits what is chosen. -/
theorem CommitTracks.commitEntry (h : CommitTracks M t n node) (hlen : i < node.log.length)
    (hX : Chosen M.quorums LogEntry.term t (t.term n) (node.log.take (i + 1))) :
    CommitTracks M t n (commitEntry node i).1 := by
  unfold Raft.commitEntry
  split
  · next hlt => exact (h.commit hlt.le hlen hX).apply
  · exact h.apply

/-- `append_entry` concludes with a majority, or changes nothing. -/
theorem CommitTracks.conclude (h : CommitTracks M t n node) (hI : Inv M.quorums LogEntry.term t)
    (hn : n ∈ M.nodes) (hterm : node.currentTerm = t.term n) {successes : Option ℕ}
    (hok : ∀ k ∈ successes, majority (M.peers n) ≤ k →
      ∃ l, t.lead (t.term n) = some l ∧ l.leader = n ∧ node.log = l.log ∧
        (∀ peer ∈ M.peers n, node.matchIndex peer < t.acked peer (t.term n)) ∧
        i < l.log.length ∧ Chosen M.quorums LogEntry.term t (t.term n) (l.log.take (i + 1))) :
    CommitTracks M t n (concludeAppend (M.peers n) node i successes).1 := by
  cases successes with
  | none => exact h
  | some k =>
      simp only [concludeAppend]
      split
      · next hmajority =>
          obtain ⟨l, hl, hleader, hlog, hmatch, hlen, hX⟩ := hok k rfl hmajority
          have hadvance := h.advance hI hn hterm hl hleader hlog hmatch
          have hkeep := advanceCommitIndex_frame node (·.log) (fun _ _ _ _ => rfl) (M.peers n)
          split
          · next node' heq =>
              rw [heq] at hadvance
              exact hadvance
          · next node' heq =>
              rw [heq] at hadvance hkeep
              have hlog' : node'.log = l.log := hkeep.trans hlog
              exact hadvance.commitEntry (hlog' ▸ hlen) (hlog' ▸ hX)
      · exact h

omit [DecidableEq ν] in
/-- `append_entry` only returns `True` with enough successes. -/
theorem majority_of_concludeAppend {peers : List ν} {successes : Option ℕ}
    (h : (concludeAppend peers node i successes).2 = true) :
    ∃ k ∈ successes, majority peers ≤ k := by
  cases successes with
  | none => cases h
  | some k =>
      simp only [concludeAppend] at h
      split at h
      · next hmajority => exact ⟨k, rfl, hmajority⟩
      · cases h

/-- **An entry with enough successes is chosen**, if `append_entry` is still in its term. -/
theorem Tracks.chosen_frame (hT : Tracks M t s) (hI : Inv M.quorums LogEntry.term t)
    (hF : FrameInv M s) (hL : TaskListInv M n (s.nodes n)) {id k : ℕ}
    {frame : AppendFrame Cmd} (hframe : (s.nodes n).appends.find? (·.id = id) = some frame)
    (hk : replicateLog ((s.nodes n).outcomes id) = some k) (hmajority : majority (M.peers n) ≤ k)
    (hterm : t.term n = frame.entry.term) :
    ∃ l, t.lead frame.entry.term = some l ∧ l.leader = n ∧
      l.log[frame.entryIndex]? = some frame.entry ∧
      Chosen M.quorums LogEntry.term t frame.entry.term (l.log.take (frame.entryIndex + 1)) := by
  have hmem := List.mem_of_find?_eq_some hframe
  have hid : frame.id = id := by simpa using List.find?_some hframe
  obtain ⟨l, hl, hleader, hentry⟩ := (hT.copy n).frame frame hmem
  obtain ⟨Q, hQ, hcopies⟩ := isMajority_of_successes (hL.member frame hmem) hL
    (fun task htask => (hF.task n task htask).peer) hk hmajority
  refine ⟨l, hl, hleader, hentry, chosen_of_copies hI hl hentry rfl hQ fun q hq => ?_⟩
  rcases hcopies q hq with rfl | ⟨task, htask, howner, hstage, rfl⟩
  · exact .inl hleader.symm
  · exact .inr (((hT.copy n).task task htask).finished hstage frame hmem (hid ▸ howner) hterm)

theorem Tracks.appendEnd (hI : Inv M.quorums LogEntry.term t) (hT : Tracks M t s)
    (hF : FrameInv M s) (hL : TaskListInv M n (s.nodes n)) {id : ℕ} {frame : AppendFrame Cmd}
    (hframe : (s.nodes n).appends.find? (·.id = id) = some frame)
    (hok : ∀ k ∈ replicateLog ((s.nodes n).outcomes id), majority (M.peers n) ≤ k →
      (s.nodes n).raft.currentTerm = frame.entry.term)
    (h : Moves M s (.appendEnd n id) s')
    (hs' : s' = { s.set n { s.nodes n with
        raft := (concludeAppend (M.peers n) (s.nodes n).raft frame.entryIndex
          (replicateLog ((s.nodes n).outcomes id))).1
        tasks := (s.nodes n).tasks.filter (·.owner ≠ .append id)
        appends := (s.nodes n).appends.filter (·.id ≠ id) } with
      acknowledged := s.acknowledged ++
        if (concludeAppend (M.peers n) (s.nodes n).raft frame.entryIndex
          (replicateLog ((s.nodes n).outcomes id))).2 = true
        then [(n, frame.entry, frame.entryIndex)] else [] }) : Follows M t s' := by
  have hvote := hT.vote n
  have hcopy := hT.copy n
  have hn : n ∈ M.nodes := hL.member frame (List.mem_of_find?_eq_some hframe)
  have hterm : ∀ k ∈ replicateLog ((s.nodes n).outcomes id), majority (M.peers n) ≤ k →
      t.term n = frame.entry.term := fun k hk hmajority => hvote.term ▸ hok k hk hmajority
  have hchosen := fun k hk hmajority =>
    hT.chosen_frame hI hF hL hframe hk hmajority (hterm k hk hmajority)
  have hnet : CopyNet M t s := hT.copyNet
  subst hs'
  refine ⟨t, .refl, hT.process hI h rfl
    (hvote.of_eq (by simp) (by simp) (by simp) (by simp) rfl)
    ⟨fun hleads peer hpeer => ?_, fun f hf => hcopy.frame f (List.mem_of_mem_filter hf),
      fun task htask => ?_⟩
    ((hT.commit n).conclude hI hn hvote.term fun k hk hmajority => ?_) rfl
    ⟨hnet.call, fun call reply hreply =>
      (hnet.reply call reply hreply).extends (.refl t) (List.prefix_refl _), fun a ha => ?_⟩⟩
  · rw [concludeAppend_matchIndex]
    exact hcopy.matchIndex hleads peer hpeer
  · exact (hcopy.task task (List.mem_of_mem_filter htask)).of_frames fun f hf _ =>
      List.mem_of_mem_filter hf
  · obtain ⟨l, hl, hleader, hentry, hX⟩ := hchosen k hk hmajority
    have hsame := hterm k hk hmajority
    rw [hsame]
    exact ⟨l, hl, hleader, hT.own hI (hsame ▸ hl) hleader,
      hsame ▸ hcopy.matchIndex ⟨l, hsame ▸ hl, hleader⟩, (List.getElem?_eq_some_iff.1 hentry).1, hX⟩
  · rcases List.mem_append.1 ha with ha | ha
    · exact hnet.acknowledged a ha
    · split at ha
      · next hresult =>
          obtain ⟨k, hk, hmajority⟩ := majority_of_concludeAppend hresult
          obtain ⟨l, hl, -, hentry, hX⟩ := hchosen k hk hmajority
          rw [List.mem_singleton.1 ha]
          exact ⟨l, hl, hentry, hX⟩
      · cases ha

/-! ### Runs -/

/-- **Coroutines go on in the term in which they were suspended.**  A tally is won in the term of
its payload.  A replication task starts at a leader, and a leader gets a successful reply to a
payload of its term.  A call of `append_entry` that has enough successes is in the term of its
entry. -/
def InTerm (M : Membership ν) (s : Cluster ν Cmd) : Action ν Cmd → Prop
  | .electionResult n replies =>
      majority (M.peers n) ≤ countVotes (replies.map Prod.snd) →
        ∀ payload ∈ (s.nodes n).election, (s.nodes n).raft.currentTerm = payload.term
  | .replicateStart n _ => (s.nodes n).raft.state = .leader
  | .replicateEnd n k reply =>
      reply.any (·.success) = true → (s.nodes n).raft.state = .leader →
        ∀ payload ∈ (s.nodes n).tasks[k]?.bind (·.payload?),
          (s.nodes n).raft.currentTerm = payload.term
  | .appendEnd n id =>
      ∀ k ∈ replicateLog ((s.nodes n).outcomes id), majority (M.peers n) ≤ k →
        ∀ frame ∈ (s.nodes n).appends.find? (·.id = id),
          (s.nodes n).raft.currentTerm = frame.entry.term
  | _ => True

instance (s : Cluster ν Cmd) : DecidablePred (InTerm M s)
  | .electionResult _ _ => inferInstanceAs (Decidable (_ → _))
  | .replicateStart _ _ => inferInstanceAs (Decidable (_ = _))
  | .replicateEnd _ _ _ => inferInstanceAs (Decidable (_ → _ → _))
  | .appendEnd _ _ => inferInstanceAs (Decidable (∀ _ ∈ _, _ → _))
  | .electionTimeout _ | .requestVote _ _ | .appendEntry _ _ | .heartbeat _
  | .appendEntries _ => .isTrue trivial

/-- **A step of the cluster is none, or one, of the moves of its history.** -/
theorem Tracks.step {a : Action ν Cmd} (hI : Inv M.quorums LogEntry.term t) (hT : Tracks M t s)
    (hEl : ElectionInv M s) (hF : FrameInv M s) (hL : ∀ n, TaskListInv M n (s.nodes n))
    (hok : InTerm M s a) (hstep : Raft.step M s a = some s') : Follows M t s' := by
  have h := moves_of_step hstep
  have hmove := h
  cases hmove with
  | electionTimeout hn hstate hidle => exact hT.electionTimeout hI h rfl
  | requestVote hcall hvoter => exact hT.requestVote hI hEl hcall h rfl
  | electionWon hel hnodup hreplies hwon =>
      refine hT.electionWon hI hEl hel ?_ (won_of_tally hEl hel hnodup hreplies hwon) h rfl
      rw [← (hT.vote _).term]
      exact hok hwon _ hel
  | electionLost hel hlost => exact hT.electionLost hI h rfl
  | appendEntry hleader => exact hT.appendEntry hI (hL _) hleader h rfl
  | heartbeat hloop hleader => exact hT.heartbeat hI h rfl
  | heartbeatExit hloop hstate => exact hT.heartbeatExit hI h rfl
  | replicateStart htask => exact hT.replicateStart hI hok h rfl
  | appendEntries hcall => exact hT.appendEntries hI hEl hF hcall h rfl
  | replicateEnd htask hreply =>
      refine hT.replicateEnd hI hF htask hreply (fun r hr hsuccess hleader => ?_) h rfl
      refine hok ?_ hleader _ ?_
      · rw [hr]
        exact hsuccess
      · rw [htask]
        rfl
  | appendEnd hframe =>
      exact hT.appendEnd hI hF (hL _) hframe
        (fun k hk hmajority => hok k hk hmajority _ hframe) h rfl

variable {callback : ν → ApplyCallback Cmd}

theorem tracks_initial : Tracks M TermConsensus.initial (initial callback) := by
  have hnone : ∀ {p c : ν} {T : ℕ}, ¬ Granted (initial callback) p c T := by
    rintro p c T (⟨-, call, hcall, -⟩ | ⟨answer, hanswer, -⟩)
    · cases hcall
    · cases hanswer
  have hlead : ∀ {n : ν} {T : ℕ}, ¬ Leads (TermConsensus.initial : History ν Cmd) n T := by
    rintro n T ⟨l, hl, -⟩
    cases hl
  refine ⟨fun n => ⟨rfl, rfl, ?_, fun c => ?_, ?_⟩, fun n => ?_,
    fun n => ⟨appliedInv_init _, fun hne => absurd rfl hne⟩, fun p c T hg => absurd hg hnone,
    ⟨?_, ?_, ?_⟩, ⟨?_, ?_, ?_⟩⟩
  · exact ⟨fun h => (by cases h), fun h => absurd h hlead⟩
  · exact ⟨fun h => (by cases h), fun ⟨L, h⟩ => (by cases h)⟩
  · exact fun _ h => (by cases h)
  · exact ⟨fun h => absurd h hlead, fun _ h => (by cases h), fun _ h => (by cases h)⟩
  · exact fun _ _ _ _ h => (by cases h)
  · exact fun _ h => (by cases h)
  · exact fun _ h => (by cases h)
  · exact fun _ h => (by cases h)
  · exact fun _ _ h => (by cases h)
  · exact fun _ h => (by cases h)

/-- **The cluster refines consensus by terms**: a run in which coroutines go on in their terms is
followed by moves of a history. -/
theorem follows_of_run (h : Run (Raft.step M) (InTerm M) (initial callback) s) :
    Follows M TermConsensus.initial s := by
  have hsimulate := h.simulate (T := fun t t' => ∃ n, Move t M.quorums LogEntry.term n t')
    (R := fun s t => ElectionInv M s ∧ FrameInv M s ∧ (∀ n, TaskListInv M n (s.nodes n)) ∧
      Inv M.quorums LogEntry.term t ∧ Tracks M t s)
    (fun s a s' t hR hok hstep => ?_)
    ⟨electionInv_initial, frameInv_initial, taskListInv_initial, inv_initial, tracks_initial⟩
  · obtain ⟨t, hreaches, -, -, -, -, hT⟩ := hsimulate
    exact ⟨t, hreaches, hT⟩
  · obtain ⟨hEl, hF, hL, hI, hT⟩ := hR
    have hmove := moves_of_step hstep
    obtain ⟨t', hreaches, hT'⟩ := hT.step hI hEl hF hL hok hstep
    exact ⟨t', hreaches, hEl.step hmove, hF.step hEl hmove, TaskListInv.step hL hF hmove,
      hI.reaches hreaches, hT'⟩

/-- The cluster has a history, and the invariant holds of it. -/
theorem exists_history (h : Run (Raft.step M) (InTerm M) (initial callback) s) :
    ∃ t, Inv M.quorums LogEntry.term t ∧ Tracks M t s := by
  obtain ⟨t, hreaches, hT⟩ := follows_of_run h
  exact ⟨t, hreaches.inv, hT⟩

/-! ### What stays -/

theorem acknowledged_mono {ok : Cluster ν Cmd → Action ν Cmd → Prop}
    (h : Run (Raft.step M) ok s s') : s.acknowledged ⊆ s'.acknowledged := by
  refine h.preorder (R := fun s s' => s.acknowledged ⊆ s'.acknowledged) (fun _ _ h => h)
    (fun _ _ _ => List.Subset.trans) fun _ _ _ hstep => ?_
  cases moves_of_step hstep
  case appendEnd => exact List.subset_append_left _ _
  all_goals exact fun _ h => h

omit [DecidableEq ν] in
theorem applied_prefix_applyCommitted (node : RaftNode ν Cmd) :
    node.applied <+: (applyCommitted node).1.applied := by
  have hloop : ∀ (k : ℕ) (node : RaftNode ν Cmd),
      node.applied <+: (applyLoop k node).1.applied := by
    intro k
    induction k with
    | zero => exact fun node => List.prefix_refl _
    | succ k ih =>
        intro node
        simp only [applyLoop]
        split
        · exact List.prefix_refl _
        · split
          · refine List.IsPrefix.trans ?_ (ih _)
            exact List.prefix_append _ _
          · exact List.prefix_append _ _
  exact hloop _ node

omit [DecidableEq ν] in
theorem applied_prefix_handleAppendEntries (node : RaftNode ν Cmd) (data : AppendEntries ν Cmd) :
    node.applied <+: (handleAppendEntries node data).1.applied := by
  rcases lt_or_ge data.term node.currentTerm with hterm | hterm
  · rw [handleAppendEntries_of_stale node hterm]
  · cases hprev : prevMatches node.log data.prevLogIndex data.prevLogTerm with
    | false =>
        rw [handleAppendEntries_of_mismatch node hterm hprev]
        exact List.prefix_refl _
    | true =>
        rw [handleAppendEntries_of_match node hterm hprev]
        exact applied_prefix_applyCommitted
          (storeEntries (acceptLeader node data.term data.leaderId) data)

omit [DecidableEq ν] in
theorem applied_prefix_concludeAppend (peers : List ν) (node : RaftNode ν Cmd) (entryIndex : ℕ)
    (successes : Option ℕ) :
    node.applied <+: (concludeAppend peers node entryIndex successes).1.applied := by
  have hadvance : node.applied <+: (advanceCommitIndex peers node).1.applied := by
    rcases advanceCommitIndex_cases peers node with hsame | hsame | ⟨m, -, -, -, -, -, hsame⟩
    · rw [hsame]
    · rw [hsame]
      exact applied_prefix_applyCommitted node
    · rw [hsame]
      exact applied_prefix_applyCommitted { node with commitIndex := m }
  cases successes with
  | none => exact List.prefix_refl _
  | some k =>
      simp only [concludeAppend]
      split
      · split
        · next heq =>
            rw [heq] at hadvance
            exact hadvance
        · next node' heq =>
            rw [heq] at hadvance
            exact hadvance.trans (applied_prefix_applyCommitted { node' with
              commitIndex := if node'.commitIndex < entryIndex then entryIndex
                else node'.commitIndex })
      · exact List.prefix_refl _

/-- What a node has applied stays applied. -/
theorem Moves.applied_isPrefix {a : Action ν Cmd} (h : Moves M s a s') (m : ν) :
    (s.nodes m).raft.applied <+: (s'.nodes m).raft.applied := by
  have key : ∀ {n : ν} {p : Process ν Cmd}, (s.nodes n).raft.applied <+: p.raft.applied →
      (s.nodes m).raft.applied <+: ((s.set n p).nodes m).raft.applied := fun hp =>
    Cluster.set_rel (R := fun p p' => p.raft.applied <+: p'.raft.applied)
      (fun _ => List.prefix_refl _) hp m
  have hsame : ∀ {n : ν} {p : Process ν Cmd}, p.raft.applied = (s.nodes n).raft.applied →
      (s.nodes m).raft.applied <+: ((s.set n p).nodes m).raft.applied := fun heq =>
    key (by rw [heq])
  cases h with
  | electionTimeout => exact hsame rfl
  | requestVote => exact hsame (handleRequestVote_frame _ (·.applied) (fun _ _ _ _ => rfl) _)
  | electionWon => exact hsame rfl
  | electionLost => exact hsame rfl
  | appendEntry => exact hsame rfl
  | heartbeat => exact hsame rfl
  | heartbeatExit => exact hsame rfl
  | replicateStart => exact hsame rfl
  | appendEntries => exact key (applied_prefix_handleAppendEntries _ _)
  | replicateEnd => exact hsame (replicateReply_frame _ _ _ _ _ (·.applied) fun _ _ _ => rfl)
  | appendEnd => exact key (applied_prefix_concludeAppend _ _ _ _)

theorem applied_mono {ok : Cluster ν Cmd → Action ν Cmd → Prop} (h : Run (Raft.step M) ok s s')
    (n : ν) : (s.nodes n).raft.applied <+: (s'.nodes n).raft.applied :=
  h.preorder (R := fun s s' => (s.nodes n).raft.applied <+: (s'.nodes n).raft.applied)
    (fun _ => List.prefix_refl _) (fun _ _ _ => List.IsPrefix.trans)
    fun _ _ _ hstep => (moves_of_step hstep).applied_isPrefix n

/-! ### Applied commands -/

omit [DecidableEq ν] in
theorem enumerate_isPrefix {log log' : List (LogEntry Cmd)} (h : log <+: log') :
    enumerate log <+: enumerate log' := by
  obtain ⟨rest, rfl⟩ := h
  rw [enumerate, enumerate, List.mapIdx_append]
  exact List.prefix_append _ _

omit [DecidableEq ν] in
/-- An index has one command. -/
theorem enumerate_unique {log : List (LogEntry Cmd)} {i : ℤ} {c c' : Cmd}
    (h : (i, c) ∈ enumerate log) (h' : (i, c') ∈ enumerate log) : c = c' := by
  obtain ⟨j, hj, heq⟩ := List.mem_mapIdx.1 h
  obtain ⟨k, hk, heq'⟩ := List.mem_mapIdx.1 h'
  cases heq
  rw [Prod.mk.injEq] at heq'
  obtain ⟨hindex, rfl⟩ := heq'
  obtain rfl : k = j := Int.ofNat.inj hindex
  rfl

omit [DecidableEq ν] in
theorem AppliedInv.length_applied {node : RaftNode ν Cmd} (h : AppliedInv node) :
    node.applied.length = (node.lastApplied + 1).toNat := by
  have hle := h.le
  have hlt := h.lt
  rw [h.applied, enumerate, List.length_mapIdx, List.length_take]
  omega

/-- **Nodes apply prefixes of one sequence of commands.** -/
theorem Tracks.applied_comparable (hI : Inv M.quorums LogEntry.term t) (hT : Tracks M t s)
    (n m : ν) : ∃ log : List (LogEntry Cmd), (s.nodes n).raft.applied <+: enumerate log ∧
      (s.nodes m).raft.applied <+: enumerate log := by
  have hpre : ∀ q, (s.nodes q).raft.applied <+:
      enumerate ((s.nodes q).raft.log.take ((s.nodes q).raft.commitIndex + 1).toNat) := by
    intro q
    have happlied := (hT.commit q).applied
    have hle := happlied.le
    rw [happlied.applied]
    refine enumerate_isPrefix (List.take_prefix_take_left ?_)
    omega
  rcases hI.committed_comparable (hT.commit n).committed (hT.commit m).committed with h | h
  · exact ⟨_, (hpre n).trans (enumerate_isPrefix h), hpre m⟩
  · exact ⟨_, hpre n, (hpre m).trans (enumerate_isPrefix h)⟩

/-- The lock table of a replica: `_apply_command` has been called with the commands it applied. -/
def lockTable (decode : Cmd → LockManager.Command) (node : RaftNode ν Cmd) :
    LockManager.LockStateMachine :=
  LockManager.applyAll (node.applied.map fun call => decode call.2)

/-- **State machine safety.**  When coroutines go on in the term in which they were suspended, two
nodes, at two moments of a run, apply the same command at an index; and with the same `last_applied`
they have the same lock table. -/
theorem stateMachineSafety (decode : Cmd → LockManager.Command)
    (h : Run (Raft.step M) (InTerm M) (initial callback) s)
    (h' : Run (Raft.step M) (InTerm M) s s') (n m : ν) :
    (∀ i c c', (i, c) ∈ (s.nodes n).raft.applied → (i, c') ∈ (s'.nodes m).raft.applied → c = c') ∧
    ((s.nodes n).raft.lastApplied = (s'.nodes m).raft.lastApplied →
      lockTable decode (s.nodes n).raft = lockTable decode (s'.nodes m).raft) := by
  obtain ⟨t', hI', hT'⟩ := exists_history (h.trans h')
  obtain ⟨log, hn, hm⟩ := hT'.applied_comparable hI' n m
  have hn' := (applied_mono h' n).trans hn
  constructor
  · intro i c c' hc hc'
    exact enumerate_unique (hn'.subset hc) (hm.subset hc')
  · intro hlast
    obtain ⟨t, -, hT⟩ := exists_history h
    have hlen : (s.nodes n).raft.applied.length = (s'.nodes m).raft.applied.length := by
      rw [(hT.commit n).applied.length_applied, (hT'.commit m).applied.length_applied, hlast]
    -- of two comparable lists of the same length
    have hsame : (s.nodes n).raft.applied = (s'.nodes m).raft.applied :=
      (List.prefix_of_prefix_length_le hn' hm hlen.le).eq_of_length hlen
    rw [lockTable, lockTable, hsame]

/-- **Leader completeness.**  When coroutines go on in the term in which they were suspended, an
entry for which `append_entry` has returned `True` is in the log of every later leader of its term
or a later one. -/
theorem leaderCompleteness (h : Run (Raft.step M) (InTerm M) (initial callback) s)
    (h' : Run (Raft.step M) (InTerm M) s s') {n m : ν} {entry : LogEntry Cmd} {i : ℕ}
    (hack : (n, entry, i) ∈ s.acknowledged) (hm : (s'.nodes m).raft.state = .leader)
    (hterm : entry.term ≤ (s'.nodes m).raft.currentTerm) :
    (s'.nodes m).raft.log[i]? = some entry := by
  obtain ⟨t, hI, hT⟩ := exists_history (h.trans h')
  obtain ⟨l, hl, hentry, hchosen⟩ := hT.copyNet.acknowledged _ (acknowledged_mono h' hack)
  obtain ⟨l', hl', hleader⟩ := (hT.vote m).leader.1 hm
  rw [(hT.vote m).term] at hterm
  -- what is chosen is in the log of the leader of any later term
  have hpre := hI.isPrefix_canon hchosen hterm hl'
  rw [canon_of_lead hl'] at hpre
  rw [hT.own hI hl' hleader]
  refine getElem?_of_isPrefix hpre ?_
  rw [List.getElem?_take_of_lt (Nat.lt_succ_self i)]
  exact hentry

end Conclude

/-! ### Two leaders in one term -/

/-- Node 0 leads term 1, and its command is applied by node 1 too. -/
def appliedTwice : List (Action (Fin 3) ℕ) :=
  [.electionTimeout 0, .requestVote 0 1, .electionResult 0 [(1, ⟨1, true⟩)], .appendEntry 0 7,
    .replicateStart 0 0, .appendEntries 0, .replicateEnd 0 0 (some ⟨1, true⟩), .appendEnd 0 0,
    .heartbeat 0, .replicateStart 0 0, .appendEntries 1]

/-- Then node 1 wins term 2. -/
def laterLeader : List (Action (Fin 3) ℕ) :=
  appliedTwice ++ [.electionTimeout 1, .requestVote 1 2, .electionResult 1 [(2, ⟨2, true⟩)]]

/-- Both leaders of the stale tally append; node 2 gets its entry to node 1 first. -/
def twoAppends : List (Action (Fin 3) ℕ) :=
  staleTally ++ [.appendEntry 2 7, .replicateStart 2 1, .appendEntries 0,
    .replicateEnd 2 1 (some ⟨2, true⟩), .appendEnd 2 0]

/-- Node 1 keeps that entry when it handles the entry of node 0, and tells node 0 that it has it. -/
def twoCommits : List (Action (Fin 3) ℕ) :=
  twoAppends ++ [.appendEntry 0 8, .replicateStart 0 0, .appendEntries 1,
    .replicateEnd 0 0 (some ⟨2, true⟩), .appendEnd 0 0]

/-- Two leaders of one term apply different commands at the first index. -/
theorem stateMachineSafety_fails :
    ¬ ∀ s : Cluster (Fin 3) ℕ, Run (Raft.step trio) anyAction (initial returning) s →
      ∀ n m i c c', (i, c) ∈ (s.nodes n).raft.applied → (i, c') ∈ (s.nodes m).raft.applied →
        c = c' := by
  intro hall
  obtain ⟨s, hs, h2, h0⟩ := Run.exists_of_exec (Raft.step trio) anyAction (initial returning)
    twoCommits (fun s => (0, 7) ∈ (s.nodes 2).raft.applied ∧ (0, 8) ∈ (s.nodes 0).raft.applied)
    (by decide)
  exact absurd (hall s hs 2 0 0 7 8 h2 h0) (by decide)

/-- The command of node 0 is the one that node 1 has applied. -/
theorem stateMachineSafety_appliedTwice :
    ∃ s : Cluster (Fin 3) ℕ, Run (Raft.step trio) (InTerm trio) (initial returning) s ∧
      (0, 7) ∈ (s.nodes 0).raft.applied ∧ (0, 7) ∈ (s.nodes 1).raft.applied ∧
      lockTable (fun _ => .release "db" "alice") (s.nodes 0).raft =
        lockTable (fun _ => .release "db" "alice") (s.nodes 1).raft := by
  obtain ⟨s, hs, h0, h1, hlast⟩ := Run.exists_of_exec (Raft.step trio) (InTerm trio)
    (initial returning) appliedTwice (fun s => (0, 7) ∈ (s.nodes 0).raft.applied ∧
      (0, 7) ∈ (s.nodes 1).raft.applied ∧
      (s.nodes 0).raft.lastApplied = (s.nodes 1).raft.lastApplied) (by decide)
  exact ⟨s, hs, h0, h1,
    (stateMachineSafety (fun _ => .release "db" "alice") hs (.refl s) 0 1).2 hlast⟩

/-- The other leader of the term does not have the acknowledged command. -/
theorem leaderCompleteness_fails :
    ¬ ∀ s : Cluster (Fin 3) ℕ, Run (Raft.step trio) anyAction (initial returning) s →
      ∀ n m entry i, (n, entry, i) ∈ s.acknowledged → (s.nodes m).raft.state = .leader →
        entry.term ≤ (s.nodes m).raft.currentTerm → (s.nodes m).raft.log[i]? = some entry := by
  intro hall
  obtain ⟨s, hs, hack, hleader, hterm, hlog⟩ := Run.exists_of_exec (Raft.step trio) anyAction
    (initial returning) twoAppends (fun s => (2, ⟨2, 7⟩, 0) ∈ s.acknowledged ∧
      (s.nodes 0).raft.state = .leader ∧ 2 ≤ (s.nodes 0).raft.currentTerm ∧
      (s.nodes 0).raft.log = []) (by decide)
  have hentry := hall s hs 2 0 ⟨2, 7⟩ 0 hack hleader hterm
  rw [hlog] at hentry
  cases hentry

/-- The leader of term 2 has the command that was acknowledged in term 1. -/
theorem leaderCompleteness_laterLeader :
    ∃ s : Cluster (Fin 3) ℕ, Run (Raft.step trio) (InTerm trio) (initial returning) s ∧
      (0, ⟨1, 7⟩, 0) ∈ s.acknowledged ∧ (s.nodes 1).raft.state = .leader ∧
      (s.nodes 1).raft.log[0]? = some ⟨1, 7⟩ := by
  obtain ⟨s, hs, hack, hleader, hterm⟩ := Run.exists_of_exec (Raft.step trio) (InTerm trio)
    (initial returning) laterLeader (fun s => (0, ⟨1, 7⟩, 0) ∈ s.acknowledged ∧
      (s.nodes 1).raft.state = .leader ∧ 1 ≤ (s.nodes 1).raft.currentTerm) (by decide)
  exact ⟨s, hs, hack, hleader, leaderCompleteness hs (.refl s) hack hleader hterm⟩

end Raft
