/-
**Replication against the history.**

A leader's entry is appended in the history; an AppendEntries call that is accepted is the
acceptance of the log it carries the end of, and a successful reply is its acknowledgement.  What a
leader learns from the replies holds for the term of the payload: a task that started in an earlier
term of the node, or a reply to one, would tell it something else, and such steps are left out here.

Main results:

* `Raft.Tracks.appendEntry`, `Raft.Tracks.heartbeat`, `Raft.Tracks.heartbeatExit`,
  `Raft.Tracks.replicateStart`, `Raft.Tracks.replicateEnd` — **replication keeps the history**;
* `Raft.Tracks.appendEntries` — **so does the handling of AppendEntries calls**.
-/

import DistSync.RaftBallots

set_option relaxedAutoImplicit false
set_option autoImplicit false

namespace Raft

open Runs TermLog TermConsensus

variable {ν Cmd : Type} [DecidableEq ν] {M : Membership ν} {s s' : Cluster ν Cmd}
  {t t' : History ν Cmd} {n : ν}

/-! ### Appending and starting to replicate -/

/-- The log of a node that leads its term is that of the leader. -/
theorem Tracks.own (hT : Tracks M t s) (hI : Inv M.quorums LogEntry.term t)
    {l : Lead ν (LogEntry Cmd)} (hl : t.lead (t.term n) = some l) (hn : l.leader = n) :
    (s.nodes n).raft.log = l.log := by
  subst hn
  rw [(hT.vote _).log]
  exact (hI.lead _ l hl).own rfl

theorem Tracks.appendEntry (hI : Inv M.quorums LogEntry.term t) (hT : Tracks M t s)
    (htasks : TaskListInv M n (s.nodes n)) {command : Cmd}
    (hleader : (s.nodes n).raft.state = .leader)
    (h : Moves M s (.appendEntry n command) s')
    (hs' : s' = s.set n { s.nodes n with
      raft := (appendEntry (s.nodes n).raft command).1
      tasks := (s.nodes n).tasks ++ createTasks (.append (s.nodes n).nextId) (M.peers n)
      appends := (s.nodes n).appends ++
        [⟨(s.nodes n).nextId, (appendEntry (s.nodes n).raft command).2.1,
          (appendEntry (s.nodes n).raft command).2.2⟩]
      nextId := (s.nodes n).nextId + 1 }) : Follows M t s' := by
  have hvote := hT.vote n
  have hcopy := hT.copy n
  have hcommit := hT.commit n
  have hleads := hvote.leader.1 hleader
  obtain ⟨l, hl, hn⟩ := hleads
  have hown := hT.own hI hl hn
  set entry : LogEntry Cmd := ⟨(s.nodes n).raft.currentTerm, command⟩ with hentry
  have hmove : Move t M.quorums LogEntry.term n (t.append n l entry) := .append hl hn hvote.term
  have hE := hmove.extends
  have hl' : (t.append n l entry).lead (t.term n) = some { l with log := l.log ++ [entry] } :=
    Function.update_self _ _ _
  have hlog : (t.append n l entry).log n = (s.nodes n).raft.log ++ [entry] := by
    simp only [State.append, Function.update_self, hvote.log]
  -- an election of the node that is pending is of an earlier term
  have hpending : ∀ payload, (s.nodes n).election = some payload →
      payload.term ≠ t.term n ∧ ¬ Leads (t.append n l entry) n payload.term := by
    intro payload hel
    have hnot := ((hvote.election payload hel)).1
    have hne : payload.term ≠ t.term n := fun heq => hnot (heq ▸ ⟨l, hl, hn⟩)
    refine ⟨hne, ?_⟩
    rintro ⟨l₁, hl₁, hn₁⟩
    simp only [State.append, Function.update_of_ne hne] at hl₁
    exact hnot ⟨l₁, hl₁, hn₁⟩
  subst hs'
  refine ⟨_, .single ⟨n, hmove⟩, hT.set hI h hE (fun m hm => hmove.apart hm) rfl
    ⟨hvote.term, hlog.symm, iff_of_true hleader ⟨_, hl', hn⟩, hvote.vote, fun payload hel => ?_⟩
    ⟨fun _ peer hpeer => ?_, fun frame hframe => ?_, fun task htask => ?_⟩
    (hcommit.of_isPrefix hE ?_ rfl rfl rfl) (hT.voteNet.extends hE rfl rfl)
    (hT.copyNet.extends hE rfl rfl rfl)⟩
  · obtain ⟨hne, hnot⟩ := hpending payload hel
    exact ⟨hnot, fun heq => absurd heq.symm hne⟩
  · have hlt := hcopy.matchIndex ⟨l, hl, hn⟩ peer hpeer
    have hle := hE.acked peer (t.term n)
    exact hlt.trans_le (Int.ofNat_le.2 hle)
  · rcases List.mem_append.1 hframe with hframe | hframe
    · exact (hcopy.frame frame hframe).extends hE
    · rw [List.mem_singleton.1 hframe]
      rw [← hvote.term] at hl'
      refine ⟨_, hl', hn, ?_⟩
      simp [Raft.appendEntry, hown, hentry]
  · rcases List.mem_append.1 htask with htask | htask
    · refine ((hcopy.task task htask).extends hE fun frame hframe =>
        (hcopy.frame frame hframe).term_le hI).of_frames fun frame hframe howner => ?_
      rcases List.mem_append.1 hframe with hframe | hframe
      · exact hframe
      · -- the old tasks belong to calls with smaller numbers
        have hlt := htasks.task_lt task htask _ howner
        rw [List.mem_singleton.1 hframe] at hlt
        exact absurd hlt (lt_irrefl _)
    · obtain ⟨peer, -, rfl⟩ := List.mem_map.1 htask
      exact .of_created rfl
  · exact (List.take_prefix _ _).trans (List.prefix_append _ _)

theorem Tracks.heartbeat (hI : Inv M.quorums LogEntry.term t) (hT : Tracks M t s)
    (h : Moves M s (.heartbeat n) s')
    (hs' : s' = s.set n { s.nodes n with
      tasks := (s.nodes n).tasks.filter (·.owner ≠ .heartbeat) ++
        createTasks .heartbeat (M.peers n) }) : Follows M t s' := by
  have hcopy := hT.copy n
  subst hs'
  refine ⟨t, .refl, hT.process hI h rfl ((hT.vote n).of_eq rfl rfl rfl rfl rfl)
    ⟨hcopy.matchIndex, hcopy.frame, fun task htask => ?_⟩ (hT.commit n) rfl
    (hT.copyNet.extends (.refl t) rfl rfl rfl)⟩
  rcases List.mem_append.1 htask with htask | htask
  · exact hcopy.task task (List.mem_of_mem_filter htask)
  · obtain ⟨peer, -, rfl⟩ := List.mem_map.1 htask
    exact .of_created rfl

theorem Tracks.heartbeatExit (hI : Inv M.quorums LogEntry.term t) (hT : Tracks M t s)
    (h : Moves M s (.heartbeat n) s')
    (hs' : s' = s.set n { s.nodes n with
      tasks := (s.nodes n).tasks.filter (·.owner ≠ .heartbeat)
      heartbeat := false }) : Follows M t s' := by
  have hcopy := hT.copy n
  subst hs'
  exact ⟨t, .refl, hT.process hI h rfl ((hT.vote n).of_eq rfl rfl rfl rfl rfl)
    ⟨hcopy.matchIndex, hcopy.frame, fun task htask =>
      hcopy.task task (List.mem_of_mem_filter htask)⟩ (hT.commit n) rfl
    (hT.copyNet.extends (.refl t) rfl rfl rfl)⟩

/-- **A leader's payload carries its own log.** -/
theorem Tracks.callTracks (hT : Tracks M t s) (hI : Inv M.quorums LogEntry.term t)
    (hleader : (s.nodes n).raft.state = .leader) (peer : ν) :
    CallTracks M t (replicateToPeer n (s.nodes n).raft peer) := by
  have hvote := hT.vote n
  have hcommit := hT.commit n
  obtain ⟨l, hl, hn⟩ := hvote.leader.1 hleader
  have hown := hT.own hI hl hn
  refine ⟨l, (s.nodes n).raft.log, (s.nodes n).raft.nextIndex peer, ?_, hn, ?_,
    snapshot_replicateToPeer n _ peer, hcommit.applied.lt, ?_⟩
  · rw [← hl, ← hvote.term]
    rfl
  · rw [hown]
  · have hcommitted := hcommit.committed
    rw [← hvote.term] at hcommitted
    exact hcommitted

theorem Tracks.replicateStart (hI : Inv M.quorums LogEntry.term t) (hT : Tracks M t s)
    {k : ℕ} {owner : Owner} {peer : ν} (hleader : (s.nodes n).raft.state = .leader)
    (h : Moves M s (.replicateStart n k) s') (hs' : s' = { s.set n { s.nodes n with
        tasks := (s.nodes n).tasks.set k ⟨owner, peer,
          .awaiting s.appendCalls.length ((s.nodes n).raft.nextIndex peer)
            (replicateToPeer n (s.nodes n).raft peer)⟩ } with
      appendCalls := s.appendCalls ++ [⟨peer, replicateToPeer n (s.nodes n).raft peer⟩] }) :
    Follows M t s' := by
  have hvote := hT.vote n
  have hcopy := hT.copy n
  subst hs'
  refine ⟨t, .refl, hT.process hI h rfl (hvote.of_eq rfl rfl rfl rfl rfl)
    ⟨hcopy.matchIndex, hcopy.frame, fun task hmem => ?_⟩ (hT.commit n) rfl
    ⟨fun c hc => ?_, fun call reply hreply => ?_, hT.copyNet.acknowledged⟩⟩
  · rcases List.mem_or_eq_of_mem_set hmem with hmem | rfl
    · exact hcopy.task task hmem
    · constructor
      · intro call next payload hstage
        cases hstage
        refine ⟨rfl, hvote.term.le, fun frame hframe _ => ?_⟩
        have hframeTracks := hcopy.frame frame hframe
        refine ⟨(hframeTracks.term_le hI).trans hvote.term.ge, fun hterm => ?_⟩
        -- the entry is in the log that the payload is built from
        obtain ⟨l, hl, hn, hentry⟩ := hframeTracks
        have hsame : frame.entry.term = t.term n := hterm.symm.trans hvote.term
        rw [hsame] at hl
        rw [← hT.own hI hl hn] at hentry
        have hlt := (List.getElem?_eq_some_iff.1 hentry).1
        simp only [replicateToPeer, List.length_drop]
        omega
      · intro hstage
        cases hstage
  · rcases List.mem_append.1 hc with hc | hc
    · exact hT.copyNet.call c hc
    · rw [List.mem_singleton.1 hc]
      exact hT.callTracks hI hleader peer
  · exact (hT.copyNet.reply call reply hreply).extends (.refl t) (List.prefix_append _ _)

/-! ### Handling AppendEntries -/

omit [DecidableEq ν] in
/-- **An accepted payload installs the log it carries the end of**, when entries have terms from 1
on; a payload whose `next_index` is behind its log is not accepted. -/
theorem log_storeEntries {canon : ℕ → List (LogEntry Cmd)} {L : List (LogEntry Cmd)}
    (node : RaftNode ν Cmd) {payload : AppendEntries ν Cmd} {next : ℕ}
    (hsnap : Snapshot payload L next) (hlog : GroundedLog canon node.log)
    (hL : GroundedLog canon L) (hpos : ∀ e ∈ node.log, 0 < e.term)
    (hprev : prevMatches node.log payload.prevLogIndex payload.prevLogTerm = true) :
    next ≤ L.length ∧ (storeEntries node payload).log = overlay node.log L := by
  have hindex : (payload.prevLogIndex + 1).toNat = next := by
    rw [hsnap.prevLogIndex]
    omega
  have hnext : next ≤ L.length := by
    by_contra hlt
    -- there was no entry at `prev_log_index`, so the payload names the term 0
    have hprevTerm := hsnap.noPrev (by omega)
    have hge : 0 ≤ payload.prevLogIndex := by
      rw [hsnap.prevLogIndex]
      omega
    rw [prevMatches, if_pos hge] at hprev
    split at hprev
    · cases hprev
    · next prev hget =>
        have hzero := of_decide_eq_true hprev
        have hterm := hpos prev (List.mem_of_getElem? hget)
        omega
  refine ⟨hnext, ?_⟩
  obtain ⟨htake, hlen⟩ := take_eq_of_prevMatches hsnap hlog hL hnext hprev
  simp only [storeEntries, hindex, hsnap.entries]
  exact appendLoop_eq_overlay hL (L.length - next) next node.log (by omega) hlog htake hlen

/-- `_apply_committed` changes nothing of what is committed. -/
theorem CommitTracks.apply {node : RaftNode ν Cmd} (h : CommitTracks M t n node) :
    CommitTracks M t n (applyCommitted node).1 where
  applied := h.applied.applyCommitted
  committed := by
    rw [applyCommitted_log, applyCommitted_commitIndex]
    exact h.committed

/-- A node that takes the log of a leader loses nothing of what it has committed. -/
theorem CommitTracks.take_isPrefix_overlay {node : RaftNode ν Cmd} (h : CommitTracks M t n node)
    (hI : Inv M.quorums LogEntry.term t) {T : ℕ} (hle : t.term n ≤ T) {l : Lead ν (LogEntry Cmd)}
    (hl : t.lead T = some l) {L : List (LogEntry Cmd)} (hL : L <+: l.log) :
    node.log.take (node.commitIndex + 1).toNat <+: overlay node.log L :=
  hI.overlay_committed (h.committed.extends (.refl t) hle) hl hL (List.take_prefix _ _)

/-- **What a node that accepts a payload commits is committed**, and it loses nothing of what it has
committed before. -/
theorem CommitTracks.store {node node' : RaftNode ν Cmd} (h : CommitTracks M t n node)
    (hI : Inv M.quorums LogEntry.term t) (hE : Extends t t') {T : ℕ} (hle : t.term n ≤ T)
    (hterm : t'.term n = T) {l : Lead ν (LogEntry Cmd)} (hl : t.lead T = some l)
    {L : List (LogEntry Cmd)} (hL : L <+: l.log) {leaderCommit : ℤ}
    (hlt : leaderCommit < L.length)
    (hcommitted : Committed M.quorums LogEntry.term t T (L.take (leaderCommit + 1).toNat))
    (hlog : node'.log = overlay node.log L)
    (hcommit : node'.commitIndex =
      if node.commitIndex < leaderCommit then min leaderCommit ((node'.log.length : ℤ) - 1)
      else node.commitIndex)
    (hlast : node'.lastApplied = node.lastApplied) (happlied : node'.applied = node.applied) :
    CommitTracks M t' n node' := by
  have hkeep : node.log.take (node.commitIndex + 1).toNat <+: node'.log := by
    rw [hlog]
    exact h.take_isPrefix_overlay hI hle hl hL
  have hpre : L <+: node'.log := hlog ▸ prefix_overlay
  have hlen := hpre.length_le
  split at hcommit
  · next hrise =>
      have hindex : node'.commitIndex = leaderCommit := by
        rw [hcommit]
        omega
      refine ⟨h.applied.of_isPrefix hkeep (by omega) (by omega) hlast happlied, ?_⟩
      have hge := h.applied.ge
      have hge' := h.applied.le
      have hsame : node'.log.take (leaderCommit + 1).toNat = L.take (leaderCommit + 1).toNat :=
        take_eq_of_isPrefix (List.take_prefix _ _) ((List.take_prefix _ _).trans hpre) (by omega)
          (by omega)
      rw [hindex, hsame]
      exact hcommitted.extends hE hterm.ge
  · exact h.of_isPrefix hE hkeep hcommit hlast happlied

/-- A reply to a call. -/
theorem CopyNet.handled (h : CopyNet M t s) (hE : Extends t t') {p : Process ν Cmd} {call : ℕ}
    {c : AppendCall ν Cmd} (hc : s.appendCalls[call]? = some c) {reply : Option AppendReply}
    (hreply : ∀ r ∈ reply, r.success = true → c.payload.reach ≤ t'.acked c.peer c.payload.term) :
    CopyNet M t' { s.set n p with
      appendReplies := s.appendReplies ++ (reply.map fun r => (call, r)).toList } := by
  have hbase : CopyNet M t' (s.set n p) := h.extends hE rfl rfl rfl
  refine ⟨hbase.call, fun call' r hmem => ?_, hbase.acknowledged⟩
  rcases List.mem_append.1 hmem with hmem | hmem
  · exact hbase.reply call' r hmem
  · obtain ⟨r', hr', heq⟩ := Option.map_eq_some_iff.1 (Option.mem_toList.1 hmem)
    cases heq
    exact ⟨c, hc, hreply r hr'⟩

/-- A node that follows the leader of a term. -/
theorem Tracks.voteTracks_follow (hT : Tracks M t s) (hI : Inv M.quorums LogEntry.term t)
    (hEl : ElectionInv M s) (hE : Extends t t') (hlead : t'.lead = t.lead)
    (hballot : t'.ballot = t.ballot) {T : ℕ} (hle : t.term n ≤ T) (hterm : t'.term n = T)
    {l : Lead ν (LogEntry Cmd)} (hl : t.lead T = some l) (hn : n ≠ l.leader)
    {raft : RaftNode ν Cmd} (hraft : raft.currentTerm = T) (hlog : raft.log = t'.log n)
    (hstate : raft.state = .follower)
    (hvote : raft.votedFor = if t.term n < T then none else (s.nodes n).raft.votedFor) :
    VoteTracks t' n { s.nodes n with raft := raft } := by
  refine (hT.vote n).raise hE hlead (hraft.trans hterm.symm) hlog ?_ (fun c => ?_)
    fun payload hel => .inl ⟨hel, hT.election_term_le hEl hel, fun heq hnone => ?_⟩
  · rw [hterm, hstate]
    refine ⟨fun h => (by cases h), ?_⟩
    rintro ⟨l', hl', rfl⟩
    rw [hl] at hl'
    cases hl'
    exact absurd rfl hn
  · rw [hballot, hterm]
    exact vote_of_adopt (hT.vote n) hI hle hvote c
  · rw [← heq, hterm, hl] at hnone
    cases hnone

theorem Tracks.appendEntries (hI : Inv M.quorums LogEntry.term t) (hT : Tracks M t s)
    (hEl : ElectionInv M s) (hF : FrameInv M s) {call : ℕ} {payload : AppendEntries ν Cmd}
    (hcall : s.appendCalls[call]? = some ⟨n, payload⟩) (h : Moves M s (.appendEntries call) s')
    (hs' : s' = { s.set n { s.nodes n with
        raft := (handleAppendEntries (s.nodes n).raft payload).1 } with
      appendReplies := s.appendReplies ++
        ((handleAppendEntries (s.nodes n).raft payload).2.map fun r => (call, r)).toList }) :
    Follows M t s' := by
  have hvote := hT.vote n
  have hmem := List.mem_of_getElem? hcall
  obtain ⟨l, L, next, hl, hid, hL, hsnap, hlt, hcommitted⟩ := hT.copyNet.call _ hmem
  have hn : n ≠ l.leader := by
    obtain ⟨hleader, hpeer⟩ := hF.call _ hmem
    rw [hid]
    exact ((M.mem_peers hleader).1 hpeer).2
  subst hs'
  rcases lt_or_ge payload.term (s.nodes n).raft.currentTerm with hstale | hle
  · -- the payload is of an earlier term: the node answers, and nothing else
    have hsame := handleAppendEntries_of_stale (s.nodes n).raft hstale
    rw [hsame] at h ⊢
    refine ⟨t, .refl, hT.process hI h rfl (hvote.of_eq rfl rfl rfl rfl rfl)
      ((hT.copy n).extends hI (.refl t) (fun h => ⟨h, rfl⟩) rfl (fun _ h => h) rfl) (hT.commit n)
      rfl (hT.copyNet.handled (.refl t) hcall fun r hr hsuccess => ?_)⟩
    cases hr
    cases hsuccess
  · have hle' : t.term n ≤ payload.term := hvote.term ▸ hle
    have hmax : max (s.nodes n).raft.currentTerm payload.term = payload.term := max_eq_right hle
    cases hprev : prevMatches (s.nodes n).raft.log payload.prevLogIndex payload.prevLogTerm with
    | false =>
        -- the previous entry is missing: the node follows the leader and keeps its log
        have hmove : Move t M.quorums LogEntry.term n (t.adopt n payload.term) := .adopt hle'
        have hE := hmove.extends
        rw [handleAppendEntries_of_mismatch _ hle hprev] at h ⊢
        refine ⟨_, .single ⟨n, hmove⟩, hT.set hI h hE (fun m hm => hmove.apart hm) rfl
          (hT.voteTracks_follow hI hEl hE rfl rfl hle' (Function.update_self _ _ _) hl hn ?_
            hvote.log rfl ?_)
          ((hT.copy n).extends hI hE (fun h => h.of_lead_eq hI hE rfl) rfl (fun _ h => h) rfl)
          ((hT.commit n).extends hE rfl rfl rfl rfl) (hT.voteNet.extends hE rfl rfl)
          (hT.copyNet.handled hE hcall fun r hr hsuccess => ?_)⟩
        · rw [acceptLeader_currentTerm, hmax]
        · rw [← hvote.term]
          rfl
        · cases hr
          cases hsuccess
    | true =>
        -- the node takes the log that the payload carries the end of
        have hmove : Move t M.quorums LogEntry.term n (t.accept n payload.term L) :=
          .accept hle' hl hn hL
        have hE := hmove.extends
        have hnew : (t.accept n payload.term L).term n = payload.term := Function.update_self _ _ _
        have hgrounded := (hI.lead _ l hl).grounded.of_isPrefix hL
        obtain ⟨hnext, hlog⟩ := log_storeEntries
          (acceptLeader (s.nodes n).raft payload.term payload.leaderId) hsnap
          (hvote.log ▸ hI.log_grounded n) hgrounded
          (fun e he => hI.pos_of_mem_log (p := n) (hvote.log ▸ he)) hprev
        rw [acceptLeader_log] at hlog
        have hraft := handleAppendEntries_of_match (s.nodes n).raft hle hprev
        refine ⟨_, .single ⟨n, hmove⟩, hT.set hI h hE (fun m hm => hmove.apart hm) rfl
          (hT.voteTracks_follow hI hEl hE rfl rfl hle' hnew hl hn ?_ ?_ ?_ ?_)
          ((hT.copy n).extends hI hE (fun h => h.of_lead_eq hI hE rfl) ?_ (fun _ h => h) rfl)
          ?_ (hT.voteNet.extends hE rfl rfl) (hT.copyNet.handled hE hcall fun r _ _ => ?_)⟩
        · rw [handleAppendEntries_currentTerm, hmax]
        · rw [hraft, applyCommitted_log, hlog, hvote.log]
          simp [State.accept]
        · exact handleAppendEntries_state _ hle
        · rw [hraft, applyCommitted_votedFor, ← hvote.term]
          rfl
        · rw [hraft]
          exact applyCommitted_frame _ (·.matchIndex) fun _ _ _ => rfl
        · simp only [hraft]
          exact ((hT.commit n).store hI hE hle' hnew hl hL hlt hcommitted hlog rfl rfl rfl).apply
        · have hreach : payload.reach = L.length := by
            rw [AppendEntries.reach, hsnap.prevLogIndex, hsnap.entries, List.length_drop]
            omega
          rw [hreach]
          exact le_ack

/-! ### Replies -/

/-- What a successful reply says. -/
theorem Tracks.acked_of_reply (hT : Tracks M t s) (hF : FrameInv M s) {task : ReplicateTask ν Cmd}
    (htask : task ∈ (s.nodes n).tasks) {call next : ℕ} {payload : AppendEntries ν Cmd}
    (hstage : task.stage = .awaiting call next payload) {r : AppendReply}
    (hr : (call, r) ∈ s.appendReplies) (hsuccess : r.success = true) :
    next + payload.entries.length ≤ t.acked task.peer payload.term := by
  obtain ⟨hprev, -, -⟩ := ((hT.copy n).task task htask).awaiting call next payload hstage
  obtain ⟨hcall, -⟩ := (hF.task n task htask).call call next payload hstage
  obtain ⟨c, hc, hacked⟩ := hT.copyNet.reply call r hr
  rw [hcall, Option.some.injEq] at hc
  subst hc
  have hreach := hacked hsuccess
  rw [AppendEntries.reach, hprev] at hreach
  have hnext : ((next : ℤ) - 1 + 1).toNat = next := by omega
  rwa [hnext] at hreach

/-- A reply that is not a success changes nothing that matters. -/
theorem replicateReply_cases (node : RaftNode ν Cmd) (peer : ν) (next entries : ℕ)
    (reply : Option AppendReply) :
    (∃ r, reply = some r ∧ r.success = true ∧
      (replicateReply node peer next entries reply).1.matchIndex =
        Function.update node.matchIndex peer ((next + entries : ℕ) - 1 : ℤ)) ∨
    (replicateReply node peer next entries reply).1.matchIndex = node.matchIndex ∧
      (replicateReply node peer next entries reply).2 = false := by
  cases reply with
  | none => exact .inr ⟨rfl, rfl⟩
  | some r =>
      cases hsuccess : r.success with
      | true => exact .inl ⟨r, rfl, hsuccess, by simp [replicateReply, hsuccess]⟩
      | false => exact .inr (by simp [replicateReply, hsuccess])

theorem Tracks.replicateEnd (hI : Inv M.quorums LogEntry.term t) (hT : Tracks M t s)
    (hF : FrameInv M s) {k : ℕ} {reply : Option AppendReply} {owner : Owner} {peer : ν}
    {call next : ℕ} {payload : AppendEntries ν Cmd}
    (htask : (s.nodes n).tasks[k]? = some ⟨owner, peer, .awaiting call next payload⟩)
    (hreply : ∀ r, reply = some r → (call, r) ∈ s.appendReplies)
    (hok : ∀ r, reply = some r → r.success = true → (s.nodes n).raft.state = .leader →
      (s.nodes n).raft.currentTerm = payload.term)
    (h : Moves M s (.replicateEnd n k reply) s')
    (hs' : s' = s.set n { s.nodes n with
      raft := (replicateReply (s.nodes n).raft peer next payload.entries.length reply).1
      tasks := (s.nodes n).tasks.set k ⟨owner, peer, .finished
        (replicateReply (s.nodes n).raft peer next payload.entries.length reply).2⟩ }) :
    Follows M t s' := by
  have hvote := hT.vote n
  have hcopy := hT.copy n
  have hmem := List.mem_of_getElem? htask
  have hacked := fun {r} hr hsuccess => hT.acked_of_reply hF hmem rfl (hreply r hr) hsuccess
  have hcases := replicateReply_cases (s.nodes n).raft peer next payload.entries.length reply
  have hframe := fun {κ : Type} (f : RaftNode ν Cmd → κ) hf =>
    replicateReply_frame (s.nodes n).raft peer next payload.entries.length reply f hf
  subst hs'
  refine ⟨t, .refl, hT.process hI h rfl
    (hvote.of_eq (by simp) (by simp) (by simp) (by simp) rfl)
    ⟨fun hleads q hq => ?_, hcopy.frame, fun task htask' => ?_⟩
    ((hT.commit n).extends (.refl t) (hframe (·.log) fun _ _ _ => rfl)
      (hframe (·.commitIndex) fun _ _ _ => rfl) (hframe (·.lastApplied) fun _ _ _ => rfl)
      (hframe (·.applied) fun _ _ _ => rfl)) rfl (hT.copyNet.extends (.refl t) rfl rfl rfl)⟩
  · have hold := hcopy.matchIndex hleads q hq
    rcases hcases with ⟨r, hr, hsuccess, hmatch⟩ | ⟨hmatch, -⟩
    · rw [hmatch]
      by_cases hqp : q = peer
      · subst hqp
        -- the node is still in the term of the payload that the peer has acknowledged
        have hterm := hok r hr hsuccess (hvote.leader.2 hleads)
        have hle := hacked hr hsuccess
        rw [← hterm, hvote.term] at hle
        rw [Function.update_self]
        simp only at hle
        omega
      · rwa [Function.update_of_ne hqp]
    · rwa [hmatch]
  · rcases List.mem_or_eq_of_mem_set htask' with htask' | rfl
    · exact hcopy.task task htask'
    · constructor
      · intro call' next' payload' hstage
        cases hstage
      · intro hstage frame hfr howner hterm
        rw [Stage.finished.injEq] at hstage
        rcases hcases with ⟨r, hr, hsuccess, -⟩ | ⟨-, hfalse⟩
        · obtain ⟨-, hle, hall⟩ := (hcopy.task _ hmem).awaiting call next payload rfl
          obtain ⟨hge, hreach⟩ := hall frame hfr howner
          have hsame : payload.term = frame.entry.term := by omega
          have hcopied := hacked hr hsuccess
          rw [hsame] at hcopied
          exact (hreach hsame).trans_le hcopied
        · rw [hfalse] at hstage
          cases hstage

end Raft
