/-
**The cluster against its history.**

The nodes of a cluster forget: the log that a voter had when it voted, the logs that leaders had
before they were overwritten, and which peers have had which entries.  `DistSync/TermConsensus.lean`
has a state that remembers all of this, and says what follows from it.  This module says what it
means that such a history belongs to a cluster (`Raft.Tracks`): terms and logs are those of the
history, leaders lead their terms in it, votes are ballots, payloads carry prefixes of the logs of
leaders, successful replies and `match_index` are acknowledgements, and what nodes have committed is
committed in it.

Main definitions:

* `Raft.VoteTracks`, `Raft.CopyTracks`, `Raft.CommitTracks` — what the history says of a node;
* `Raft.VoteNet`, `Raft.CopyNet` — what it says of calls and replies;
* `Raft.Tracks` — **the history belongs to the cluster**.

Main results:

* `Raft.Tracks.set` — a step need only be checked at the node that takes it;
* `Raft.Tracks.process` — a step that the history does not see.
-/

import DistSync.RaftCommit
import DistSync.TermConsensusMoves

set_option relaxedAutoImplicit false
set_option autoImplicit false

namespace Raft

open Runs TermLog TermConsensus

variable {ν Cmd : Type}

/-! ### Histories -/

/-- The history of a cluster. -/
abbrev History (ν Cmd : Type) := TermConsensus.State ν (LogEntry Cmd)

/-- The majorities of a cluster are its quorums. -/
def Membership.quorums [DecidableEq ν] (M : Membership ν) : Quorums ν where
  IsQuorum := M.IsMajority
  inter := Membership.IsMajority.inter

/-- A node leads a term. -/
def Leads (t : History ν Cmd) (n : ν) (T : ℕ) : Prop := ∃ l, t.lead T = some l ∧ l.leader = n

/-- A vote request names the end of a log. -/
def RequestVote.describes (payload : RequestVote ν) (log : List (LogEntry Cmd)) : Prop :=
  payload.lastLogIndex = (log.length : ℤ) - 1 ∧
    payload.lastLogTerm = match log.getLast? with
      | none => 0
      | some last => last.term

/-- A node with the given log finds a vote request up to date. -/
def RequestVote.convinces (payload : RequestVote ν) (log : List (LogEntry Cmd)) : Prop :=
  ∀ node : RaftNode ν Cmd, node.log = log →
    isLogUpToDate node payload.lastLogIndex payload.lastLogTerm = true

/-- **The check of the log is the one that ballots need.** -/
theorem upToDate_of_convinces {payload : RequestVote ν} {C L : List (LogEntry Cmd)}
    (hC : payload.describes C) (hL : payload.convinces L) : UpToDate LogEntry.term C L := by
  intro e he
  have hL := hL { (init fun _ _ => true : RaftNode ν Cmd) with log := L } rfl
  have hcases : e.term < payload.lastLogTerm ∨
      payload.lastLogTerm = e.term ∧ (L.length : ℤ) - 1 ≤ payload.lastLogIndex := by
    simp only [isLogUpToDate, Option.mem_def.1 he] at hL
    split at hL
    · exact .inl (of_decide_eq_true hL)
    · next heq => exact .inr ⟨not_not.1 heq, of_decide_eq_true hL⟩
  obtain ⟨hindex, hterm⟩ := hC
  have hlen : 0 < L.length := List.length_pos_of_mem (List.mem_of_getLast? he)
  cases hlast : C.getLast? with
  | none =>
      have hzero : payload.lastLogTerm = 0 := by rw [hterm, hlast]
      obtain rfl := List.getLast?_eq_none_iff.1 hlast
      rw [hzero, hindex, List.length_nil] at hcases
      omega
  | some last =>
      rw [hlast] at hterm
      rw [hterm, hindex] at hcases
      refine ⟨last, rfl, ?_⟩
      rcases hcases with hlt | ⟨heq, hle⟩
      · exact .inl hlt
      · exact .inr ⟨heq, by omega⟩

/-! ### What the history says of a node -/

/-- Terms, logs, leaders and votes.  As long as a term has no leader, a candidate has the log that
it described when it asked for votes. -/
structure VoteTracks (t : History ν Cmd) (n : ν) (p : Process ν Cmd) : Prop where
  term : p.raft.currentTerm = t.term n
  log : p.raft.log = t.log n
  leader : p.raft.state = .leader ↔ Leads t n (t.term n)
  vote : ∀ c, p.raft.votedFor = some c ↔ ∃ L, t.ballot n (t.term n) = some (c, L)
  election : ∀ payload, p.election = some payload → ¬ Leads t n payload.term ∧
    (t.term n = payload.term → t.lead payload.term = none → payload.describes (t.log n))

/-- The entry that a call of `append_entry` waits for is in the log that the node had as leader. -/
def FrameTracks (t : History ν Cmd) (n : ν) (frame : AppendFrame Cmd) : Prop :=
  ∃ l, t.lead frame.entry.term = some l ∧ l.leader = n ∧ l.log[frame.entryIndex]? = some frame.entry

/-- A replication task of a call of `append_entry` carries its entry, if it started in the term of
the entry; and if it has returned `True` by then, the peer has acknowledged it. -/
structure TaskTracks (t : History ν Cmd) (n : ν) (appends : List (AppendFrame Cmd))
    (task : ReplicateTask ν Cmd) : Prop where
  awaiting : ∀ call next payload, task.stage = .awaiting call next payload →
    payload.prevLogIndex = (next : ℤ) - 1 ∧ payload.term ≤ t.term n ∧
      ∀ frame ∈ appends, task.owner = .append frame.id → frame.entry.term ≤ payload.term ∧
        (payload.term = frame.entry.term → frame.entryIndex < next + payload.entries.length)
  finished : task.stage = .finished true → ∀ frame ∈ appends, task.owner = .append frame.id →
    t.term n = frame.entry.term → frame.entryIndex < t.acked task.peer frame.entry.term

/-- What a node knows of the logs of its peers. -/
structure CopyTracks (peers : List ν) (t : History ν Cmd) (n : ν) (p : Process ν Cmd) : Prop where
  matchIndex : Leads t n (t.term n) → ∀ peer ∈ peers,
    p.raft.matchIndex peer < t.acked peer (t.term n)
  frame : ∀ frame ∈ p.appends, FrameTracks t n frame
  task : ∀ task ∈ p.tasks, TaskTracks t n p.appends task

section Tracks

variable [DecidableEq ν] (M : Membership ν)

/-- What a node has committed is committed, and it has applied it in the order of the log. -/
structure CommitTracks (t : History ν Cmd) (n : ν) (node : RaftNode ν Cmd) : Prop where
  applied : AppliedInv node
  committed : Committed M.quorums LogEntry.term t (t.term n)
    (node.log.take (node.commitIndex + 1).toNat)

/-! ### What the history says of the network -/

/-- Ballots were cast by nodes that found a request up to date, the one request of the candidate
for this term. -/
structure VoteNet (t : History ν Cmd) (s : Cluster ν Cmd) : Prop where
  ballot : ∀ p T c L, t.ballot p T = some (c, L) → ∃ payload ∈ s.voteCalls,
    payload.candidateId = c ∧ payload.term = T ∧ payload.convinces L
  call : ∀ payload ∈ s.voteCalls, 0 < payload.term ∧ payload.term ≤ t.term payload.candidateId
  unique : ∀ payload ∈ s.voteCalls, ∀ payload' ∈ s.voteCalls,
    payload.candidateId = payload'.candidateId → payload.term = payload'.term → payload = payload'

/-- A payload was built by the leader of its term, from a prefix of its log. -/
def CallTracks (t : History ν Cmd) (payload : AppendEntries ν Cmd) : Prop :=
  ∃ l L next, t.lead payload.term = some l ∧ l.leader = payload.leaderId ∧ L <+: l.log ∧
    Snapshot payload L next ∧ payload.leaderCommit < L.length ∧
    Committed M.quorums LogEntry.term t payload.term (L.take (payload.leaderCommit + 1).toNat)

/-- The length of the log that a payload carries the end of. -/
def AppendEntries.reach (payload : AppendEntries ν Cmd) : ℕ :=
  (payload.prevLogIndex + 1).toNat + payload.entries.length

/-- The peer has acknowledged what was in a payload that it has answered with success. -/
def ReplyTracks (t : History ν Cmd) (s : Cluster ν Cmd) (call : ℕ) (reply : AppendReply) : Prop :=
  ∃ c, s.appendCalls[call]? = some c ∧
    (reply.success = true → c.payload.reach ≤ t.acked c.peer c.payload.term)

/-- Calls, replies and acknowledged commands. -/
structure CopyNet (t : History ν Cmd) (s : Cluster ν Cmd) : Prop where
  call : ∀ c ∈ s.appendCalls, CallTracks M t c.payload
  reply : ∀ call reply, (call, reply) ∈ s.appendReplies → ReplyTracks t s call reply
  acknowledged : ∀ a ∈ s.acknowledged, ∃ l, t.lead a.2.1.term = some l ∧
    l.log[a.2.2]? = some a.2.1 ∧
    Chosen M.quorums LogEntry.term t a.2.1.term (l.log.take (a.2.2 + 1))

/-- **The history belongs to the cluster.** -/
structure Tracks (t : History ν Cmd) (s : Cluster ν Cmd) : Prop where
  vote : ∀ n, VoteTracks t n (s.nodes n)
  copy : ∀ n, CopyTracks (M.peers n) t n (s.nodes n)
  commit : ∀ n, CommitTracks M t n (s.nodes n).raft
  granted : ∀ p c T, Granted s p c T → ∃ L, t.ballot p T = some (c, L)
  voteNet : VoteNet t s
  copyNet : CopyNet M t s

end Tracks

/-! ### Longer histories -/

section Longer

variable {t t' : History ν Cmd} {n m : ν} {T : ℕ} {p p' : Process ν Cmd}

theorem Leads.extends (h : Leads t n T) (hE : Extends t t') : Leads t' n T := by
  obtain ⟨l, hl, hn⟩ := h
  obtain ⟨l', hl', hleader, -⟩ := hE.lead T l hl
  exact ⟨l', hl', hleader.trans hn⟩

theorem lead_eq_none_of_extends (hE : Extends t t') (h : t'.lead T = none) : t.lead T = none := by
  cases hl : t.lead T with
  | none => rfl
  | some l =>
      obtain ⟨l', hl', -⟩ := hE.lead T l hl
      rw [h] at hl'
      cases hl'

theorem FrameTracks.extends {frame : AppendFrame Cmd} (h : FrameTracks t n frame)
    (hE : Extends t t') : FrameTracks t' n frame := by
  obtain ⟨l, hl, hn, hentry⟩ := h
  obtain ⟨l', hl', hleader, -, -, hlog⟩ := hE.lead _ l hl
  exact ⟨l', hl', hleader.trans hn, getElem?_of_isPrefix hlog hentry⟩

/-- The term of an entry that waits for its copies is not later than the term of the node. -/
theorem FrameTracks.term_le {A : Quorums ν} {frame : AppendFrame Cmd} (h : FrameTracks t n frame)
    (hI : Inv A LogEntry.term t) : frame.entry.term ≤ t.term n := by
  obtain ⟨l, hl, rfl, -⟩ := h
  exact (hI.lead _ l hl).term

/-- A task that has not started carries nothing. -/
theorem TaskTracks.of_created {appends : List (AppendFrame Cmd)} {task : ReplicateTask ν Cmd}
    (h : task.stage = .created) : TaskTracks t n appends task := by
  constructor
  · intro call next payload hstage
    rw [h] at hstage
    cases hstage
  · intro hstage
    rw [h] at hstage
    cases hstage

/-- The frames that a task belongs to are the same. -/
theorem TaskTracks.of_frames {appends appends' : List (AppendFrame Cmd)}
    {task : ReplicateTask ν Cmd}
    (h : TaskTracks t n appends task)
    (hframes : ∀ frame ∈ appends', task.owner = .append frame.id → frame ∈ appends) :
    TaskTracks t n appends' task where
  awaiting := fun call next payload hstage =>
    let ⟨hprev, hterm, hall⟩ := h.awaiting call next payload hstage
    ⟨hprev, hterm, fun frame hframe howner => hall frame (hframes frame hframe howner) howner⟩
  finished := fun hstage frame hframe howner =>
    h.finished hstage frame (hframes frame hframe howner) howner

/-- A task whose node goes to a later term. -/
theorem TaskTracks.extends {appends : List (AppendFrame Cmd)} {task : ReplicateTask ν Cmd}
    (h : TaskTracks t n appends task) (hE : Extends t t')
    (hframes : ∀ frame ∈ appends, frame.entry.term ≤ t.term n) : TaskTracks t' n appends task where
  awaiting := fun call next payload hstage =>
    let ⟨hprev, hterm, hall⟩ := h.awaiting call next payload hstage
    ⟨hprev, hterm.trans (hE.term n), hall⟩
  finished := by
    intro hstage frame hframe howner hterm
    have hsame : t.term n = frame.entry.term :=
      le_antisymm (hterm ▸ hE.term n) (hframes frame hframe)
    exact (h.finished hstage frame hframe howner hsame).trans_le (hE.acked _ _)

/-- A process whose term, log, vote and state are the same. -/
theorem VoteTracks.of_eq (h : VoteTracks t n p) (hterm : p'.raft.currentTerm = p.raft.currentTerm)
    (hlog : p'.raft.log = p.raft.log) (hstate : p'.raft.state = p.raft.state)
    (hvote : p'.raft.votedFor = p.raft.votedFor) (hel : p'.election = p.election) :
    VoteTracks t n p' where
  term := hterm.trans h.term
  log := hlog.trans h.log
  leader := hstate ▸ h.leader
  vote := hvote ▸ h.vote
  election := hel ▸ h.election

theorem VoteTracks.apart (h : VoteTracks t m p) (hE : Extends t t') (ha : Apart t t' m) :
    VoteTracks t' m p where
  term := h.term.trans ha.term.symm
  log := h.log.trans ha.log.symm
  leader := by
    rw [ha.term, h.leader]
    exact ⟨fun hlead => hlead.extends hE, fun ⟨l', hl', hm⟩ => ha.led _ l' hl' hm⟩
  vote := by
    intro c
    rw [ha.term, ha.ballot]
    exact h.vote c
  election := by
    intro payload hel
    obtain ⟨hnot, hlog⟩ := h.election payload hel
    refine ⟨fun hlead => ?_, fun hterm hnone => ?_⟩
    · obtain ⟨l', hl', hm⟩ := hlead
      exact hnot (ha.led _ l' hl' hm)
    · rw [ha.log]
      exact hlog (ha.term ▸ hterm) (lead_eq_none_of_extends hE hnone)

/-- A node that leads its term after going on to a term has led it before, if no leader is new. -/
theorem Leads.of_lead_eq {A : Quorums ν} (h : Leads t' n (t'.term n)) (hI : Inv A LogEntry.term t)
    (hE : Extends t t') (hlead : t'.lead = t.lead) :
    Leads t n (t.term n) ∧ t'.term n = t.term n := by
  obtain ⟨l, hl, rfl⟩ := h
  rw [hlead] at hl
  have hterm : t'.term l.leader = t.term l.leader :=
    le_antisymm (hI.lead _ l hl).term (hE.term _)
  rw [hterm] at hl
  exact ⟨⟨l, hl, rfl⟩, hterm⟩

/-- Tasks that are dropped, and frames that stay. -/
theorem CopyTracks.of_matchIndex {A : Quorums ν} {peers : List ν} (h : CopyTracks peers t n p)
    (hI : Inv A LogEntry.term t) (hE : Extends t t')
    (hmatch : Leads t' n (t'.term n) → ∀ peer ∈ peers,
      p'.raft.matchIndex peer < t'.acked peer (t'.term n))
    (htasks : ∀ task ∈ p'.tasks, task ∈ p.tasks) (happends : p'.appends = p.appends) :
    CopyTracks peers t' n p' where
  matchIndex := hmatch
  frame := fun frame hframe => (h.frame frame (happends ▸ hframe)).extends hE
  task := by
    intro task htask
    rw [happends]
    exact (h.task task (htasks task htask)).extends hE fun frame hframe =>
      (h.frame frame hframe).term_le hI

/-- What a node knows of its peers stays true when its term, or its leadership, ends. -/
theorem CopyTracks.extends {A : Quorums ν} {peers : List ν} (h : CopyTracks peers t n p)
    (hI : Inv A LogEntry.term t) (hE : Extends t t')
    (hlead : Leads t' n (t'.term n) → Leads t n (t.term n) ∧ t'.term n = t.term n)
    (hmatch : p'.raft.matchIndex = p.raft.matchIndex)
    (htasks : ∀ task ∈ p'.tasks, task ∈ p.tasks) (happends : p'.appends = p.appends) :
    CopyTracks peers t' n p' := by
  refine h.of_matchIndex hI hE (fun hleads peer hpeer => ?_) htasks happends
  obtain ⟨hold, hterm⟩ := hlead hleads
  have hlt := h.matchIndex hold peer hpeer
  have hle := hE.acked peer (t.term n)
  rw [hmatch, hterm]
  omega

variable [DecidableEq ν] {M : Membership ν} {s s' : Cluster ν Cmd}

/-- A node whose log keeps what is committed. -/
theorem CommitTracks.of_isPrefix {node node' : RaftNode ν Cmd} (h : CommitTracks M t n node)
    (hE : Extends t t') (hlog : node.log.take (node.commitIndex + 1).toNat <+: node'.log)
    (hcommit : node'.commitIndex = node.commitIndex) (hlast : node'.lastApplied = node.lastApplied)
    (happlied : node'.applied = node.applied) : CommitTracks M t' n node' := by
  have hge := h.applied.ge
  have hle := h.applied.le
  have hlt := h.applied.lt
  have hlen := hlog.length_le
  rw [List.length_take] at hlen
  refine ⟨h.applied.of_isPrefix hlog hcommit.ge (by omega) hlast happlied, ?_⟩
  have hsame : node'.log.take (node'.commitIndex + 1).toNat =
      node.log.take (node.commitIndex + 1).toNat := by
    rw [List.prefix_iff_eq_take.1 hlog, List.length_take, hcommit]
    congr 1
    omega
  rw [hsame]
  exact h.committed.extends hE (hE.term n)

theorem CommitTracks.extends {node node' : RaftNode ν Cmd} (h : CommitTracks M t n node)
    (hE : Extends t t') (hlog : node'.log = node.log)
    (hcommit : node'.commitIndex = node.commitIndex)
    (hlast : node'.lastApplied = node.lastApplied) (happlied : node'.applied = node.applied) :
    CommitTracks M t' n node' :=
  h.of_isPrefix hE (hlog ▸ List.take_prefix _ _) hcommit hlast happlied

theorem CallTracks.extends {payload : AppendEntries ν Cmd} (h : CallTracks M t payload)
    (hE : Extends t t') : CallTracks M t' payload := by
  obtain ⟨l, L, next, hl, hn, hL, hsnap, hlt, hcommitted⟩ := h
  obtain ⟨l', hl', hleader, -, -, hlog⟩ := hE.lead _ l hl
  exact ⟨l', L, next, hl', hleader.trans hn, hL.trans hlog, hsnap, hlt,
    hcommitted.extends hE le_rfl⟩

omit [DecidableEq ν] in
theorem ReplyTracks.extends {call : ℕ} {reply : AppendReply} (h : ReplyTracks t s call reply)
    (hE : Extends t t') (hcalls : s.appendCalls <+: s'.appendCalls) :
    ReplyTracks t' s' call reply := by
  obtain ⟨c, hc, hacked⟩ := h
  exact ⟨c, getElem?_of_isPrefix hcalls hc, fun hsuccess =>
    (hacked hsuccess).trans (hE.acked _ _)⟩

/-- The calls and replies of a step that adds none of its own. -/
theorem CopyNet.extends (h : CopyNet M t s) (hE : Extends t t')
    (hcalls : s'.appendCalls = s.appendCalls) (hreplies : s'.appendReplies = s.appendReplies)
    (hacks : s'.acknowledged = s.acknowledged) : CopyNet M t' s' where
  call := fun c hc => (h.call c (hcalls ▸ hc)).extends hE
  reply := fun call reply hreply =>
    (h.reply call reply (hreplies ▸ hreply)).extends hE (hcalls ▸ List.prefix_refl _)
  acknowledged := by
    intro a ha
    obtain ⟨l, hl, hentry, hchosen⟩ := h.acknowledged a (hacks ▸ ha)
    obtain ⟨l', hl', -, -, -, hlog⟩ := hE.lead _ l hl
    have hlen := (List.getElem?_eq_some_iff.1 hentry).1
    have htake : l.log.take (a.2.2 + 1) = l'.log.take (a.2.2 + 1) :=
      take_eq_of_isPrefix ((List.take_prefix _ _).trans hlog) (List.take_prefix _ _) hlen
        ((Nat.succ_le_of_lt hlen).trans hlog.length_le)
    exact ⟨l', hl', getElem?_of_isPrefix hlog hentry, htake ▸ hchosen.extends hE⟩

omit [DecidableEq ν] in
/-- The votes of a step that casts none. -/
theorem VoteNet.extends (h : VoteNet t s) (hE : Extends t t') (hballot : t'.ballot = t.ballot)
    (hcalls : s'.voteCalls = s.voteCalls) : VoteNet t' s' where
  ballot := by
    intro p T c L hb
    rw [hballot] at hb
    rw [hcalls]
    exact h.ballot p T c L hb
  call := by
    intro payload hmem
    rw [hcalls] at hmem
    obtain ⟨hpos, hle⟩ := h.call payload hmem
    exact ⟨hpos, hle.trans (hE.term _)⟩
  unique := hcalls ▸ h.unique

/-- **A step need only be checked at the node that takes it.** -/
theorem Tracks.set {a : Action ν Cmd} (hT : Tracks M t s) (hI : Inv M.quorums LogEntry.term t)
    (h : Moves M s a s') (hE : Extends t t') (hapart : ∀ m, m ≠ n → Apart t t' m)
    (hnodes : s'.nodes = Function.update s.nodes n p)
    (hvote : VoteTracks t' n p) (hcopy : CopyTracks (M.peers n) t' n p)
    (hcommit : CommitTracks M t' n p.raft) (hvoteNet : VoteNet t' s') (hcopyNet : CopyNet M t' s') :
    Tracks M t' s' := by
  have hall : ∀ {P : ν → Process ν Cmd → Prop}, P n p → (∀ m, m ≠ n → P m (s.nodes m)) →
      ∀ m, P m (s'.nodes m) := by
    intro P hn hm m
    rw [hnodes]
    by_cases heq : m = n
    · subst heq
      rwa [Function.update_self]
    · rw [Function.update_of_ne heq]
      exact hm m heq
  have hvotes : ∀ m, VoteTracks t' m (s'.nodes m) :=
    hall hvote fun m hm => (hT.vote m).apart hE (hapart m hm)
  refine ⟨hvotes, hall (P := fun m p => CopyTracks (M.peers m) t' m p) hcopy fun m hm => ?_,
    hall (P := fun m p => CommitTracks M t' m p.raft) hcommit fun m hm => ?_,
    fun q c T hg => ?_, hvoteNet, hcopyNet⟩
  · have ha := hapart m hm
    refine (hT.copy m).extends hI hE (fun ⟨l', hl', hleader⟩ => ?_) rfl (fun _ h => h) rfl
    exact ⟨ha.led _ l' (ha.term ▸ hl') hleader, ha.term⟩
  · exact (hT.commit m).extends hE rfl rfl rfl rfl
  · -- a vote that is new is the one the node remembers
    rcases hg.of_step h with hold | ⟨hterm, hvoted, -⟩
    · obtain ⟨L, hL⟩ := hT.granted q c T hold
      exact ⟨L, hE.ballot q T _ hL⟩
    · have hq := hvotes q
      rw [← hterm, hq.term]
      exact (hq.vote c).1 hvoted

/-- A step that adds nothing to the history. -/
theorem Tracks.process {a : Action ν Cmd} (hT : Tracks M t s)
    (hI : Inv M.quorums LogEntry.term t) (h : Moves M s a s')
    (hnodes : s'.nodes = Function.update s.nodes n p)
    (hvote : VoteTracks t n p) (hcopy : CopyTracks (M.peers n) t n p)
    (hcommit : CommitTracks M t n p.raft) (hcalls : s'.voteCalls = s.voteCalls)
    (hcopyNet : CopyNet M t s') : Tracks M t s' :=
  hT.set hI h (.refl t) (fun m _ => .refl t m) hnodes hvote hcopy hcommit
    (hT.voteNet.extends (.refl t) rfl hcalls) hcopyNet

end Longer

end Raft
