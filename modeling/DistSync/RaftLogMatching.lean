/-
**Log matching.**

`handle_append_entries` compares terms only: an entry whose term agrees with what the log has at
its index is kept without looking at the command.  This is right when logs match, that is, when
equal terms at an index mean equal logs up to that index, and `DistSync/TermLog.lean` says what
keeps logs matching: one writer for each term.

The entry loop is shown to compute `TermLog.overlay` on logs that match
(`Raft.appendLoop_of_matching`), in particular on logs grounded in canonical logs, so the log a
follower ends up with is grounded again.  The invariant of the replication layer (`Raft.LogInv`)
then follows for every way in which leadership may be handed out, as long as the entries and the
payloads of a term come from one leader.

Main definitions:

* `Raft.Snapshot` — a payload was built from a given log at a given `next_index`;
* `Raft.FrameInv` — what tasks and calls remember of the node that made them;
* `Raft.replicationStep` — the cluster with leadership handed out at will;
* `Raft.SingleSource` — the entries and payloads of a term come from its leader.

Main results:

* `Raft.appendLoop_of_matching` — **the entry loop installs the log the payload was built from**;
* `Raft.logMatching` — **logs match in every run of the replication layer**.
-/

import DistSync.RaftReplication
import DistSync.TermLog

set_option relaxedAutoImplicit false
set_option autoImplicit false

namespace Raft

open Runs TermLog

variable {ν Cmd : Type}

/-! ### The entry loop -/

/-- Logs of entries with terms, grounded in the given canonical logs. -/
abbrev GroundedLog (canon : ℕ → List (LogEntry Cmd)) (log : List (LogEntry Cmd)) : Prop :=
  Grounded LogEntry.term canon log

/-- `Snapshot payload M next`: the payload carries the entries of `M` from `next` on, and the term
of the entry in front of them (0 when there is none). -/
structure Snapshot (payload : AppendEntries ν Cmd) (M : List (LogEntry Cmd)) (next : ℕ) :
    Prop where
  prevLogIndex : payload.prevLogIndex = (next : ℤ) - 1
  entries : payload.entries = M.drop next
  prevLogTerm : ∀ prev e, next = prev + 1 → M[prev]? = some e → payload.prevLogTerm = e.term
  noPrev : M.length < next → payload.prevLogTerm = 0

theorem snapshot_replicateToPeer (self : ν) (node : RaftNode ν Cmd) (peer : ν) :
    Snapshot (replicateToPeer self node peer) node.log (node.nextIndex peer) where
  prevLogIndex := rfl
  entries := rfl
  prevLogTerm := by
    intro prev e hnext he
    simp [replicateToPeer, hnext, he]
  noPrev := by
    intro hlt
    obtain ⟨prev, hprev⟩ : ∃ prev, node.nextIndex peer = prev + 1 :=
      ⟨node.nextIndex peer - 1, by omega⟩
    have hnone : node.log[prev]? = none := List.getElem?_eq_none (by omega)
    simp [replicateToPeer, hprev, hnone]

theorem appendLoop_nil (log : List (LogEntry Cmd)) (index : ℕ) :
    appendLoop log index [] = log := rfl

/-- An entry that is there already is kept. -/
theorem appendLoop_keep {log : List (LogEntry Cmd)} {index : ℕ} {old entry : LogEntry Cmd}
    (hold : log[index]? = some old) (hterm : old.term = entry.term)
    (entries : List (LogEntry Cmd)) :
    appendLoop log index (entry :: entries) = appendLoop log (index + 1) entries := by
  have hlt := (List.getElem?_eq_some_iff.1 hold).1
  simp only [appendLoop, hold]
  rw [if_neg (not_not.2 hterm), if_neg (by omega)]

/-- An entry of another term is cut off with what is behind it, and replaced. -/
theorem appendLoop_conflict {log : List (LogEntry Cmd)} {index : ℕ} {old entry : LogEntry Cmd}
    (hold : log[index]? = some old) (hterm : old.term ≠ entry.term)
    (entries : List (LogEntry Cmd)) :
    appendLoop log index (entry :: entries) =
      appendLoop (log.take index ++ [entry]) (index + 1) entries := by
  have hlt := (List.getElem?_eq_some_iff.1 hold).1
  simp only [appendLoop, hold]
  rw [if_pos hterm, if_pos (by rw [List.length_take]; omega)]

/-- At the end of the log the entry is appended. -/
theorem appendLoop_append (log : List (LogEntry Cmd)) (entry : LogEntry Cmd)
    (entries : List (LogEntry Cmd)) :
    appendLoop log log.length (entry :: entries) =
      appendLoop (log ++ [entry]) (log.length + 1) entries := by
  simp [appendLoop]

/-- **The entry loop installs the log the payload was built from**, when the two logs match and
agree on what is in front of the entries. -/
theorem appendLoop_of_matching {M : List (LogEntry Cmd)} :
    ∀ (k index : ℕ) (log : List (LogEntry Cmd)), index + k = M.length →
      Matching LogEntry.term log M → log.take index = M.take index → index ≤ log.length →
      appendLoop log index (M.drop index) = overlay log M := by
  intro k
  -- induction on the number of entries still to be handled
  induction k with
  | zero =>
      intro index log hk _ htake _
      obtain rfl : index = M.length := by omega
      rw [List.drop_length, appendLoop_nil]
      rw [List.take_length] at htake
      exact (overlay_of_isPrefix (htake ▸ log.take_prefix M.length)).symm
  | succ k ih =>
      intro index log hk hlog htake hindex
      obtain ⟨entry, hentry⟩ : ∃ entry, M[index]? = some entry :=
        ⟨M[index], List.getElem?_eq_getElem (by omega)⟩
      have hsucc : (M.take (index + 1)).length = index + 1 := by
        rw [List.length_take]; omega
      -- once the log ends with the entry it is a prefix of `M`, and the rest only extends it
      have hrest : appendLoop (M.take (index + 1)) (index + 1) (M.drop (index + 1)) = M := by
        rw [ih (index + 1) _ (by omega) (matching_of_isPrefix (M.take_prefix _))
          (by rw [List.take_take, min_self]) hsucc.ge]
        exact overlay_of_isPrefix' (M.take_prefix _)
      rw [drop_eq_cons hentry]
      rcases lt_or_eq_of_le hindex with hlt | rfl
      · obtain ⟨old, hold⟩ : ∃ old, log[index]? = some old :=
          ⟨log[index], List.getElem?_eq_getElem hlt⟩
        by_cases hterm : old.term = entry.term
        · rw [appendLoop_keep hold hterm]
          exact ih (index + 1) log (by omega) hlog (hlog _ _ _ hold hentry hterm) hlt
        · rw [appendLoop_conflict hold hterm, htake, ← take_succ_eq_append hentry, hrest]
          exact (overlay_of_ne hold hentry fun h => hterm (h ▸ rfl)).symm
      · have hpre : log <+: M := by
          rw [List.take_length] at htake
          exact htake ▸ M.take_prefix log.length
        have hlog' : log ++ [entry] = M.take (log.length + 1) := by
          rw [take_succ_eq_append hentry, ← htake, List.take_length]
        rw [appendLoop_append, hlog', hrest]
        exact (overlay_of_isPrefix' hpre).symm

/-- The entry loop on two grounded logs. -/
theorem appendLoop_eq_overlay {canon : ℕ → List (LogEntry Cmd)} {M : List (LogEntry Cmd)}
    (hM : GroundedLog canon M) :
    ∀ (k index : ℕ) (log : List (LogEntry Cmd)), index + k = M.length → GroundedLog canon log →
      log.take index = M.take index → index ≤ log.length →
      appendLoop log index (M.drop index) = overlay log M := fun k index log hk hlog =>
  appendLoop_of_matching k index log hk (hlog.matches hM)

/-- The check of the previous entry makes two logs that match agree up to it. -/
theorem take_eq_of_matching {log M : List (LogEntry Cmd)} {payload : AppendEntries ν Cmd}
    {next : ℕ} (hsnap : Snapshot payload M next) (hlog : Matching LogEntry.term log M)
    (hnext : next ≤ M.length)
    (hprev : prevMatches log payload.prevLogIndex payload.prevLogTerm = true) :
    log.take next = M.take next ∧ next ≤ log.length := by
  cases next with
  | zero => simp
  | succ prev =>
      have hindex : payload.prevLogIndex = (prev : ℤ) := by
        rw [hsnap.prevLogIndex]; omega
      rw [hindex, prevMatches, if_pos (Int.natCast_nonneg prev), Int.toNat_natCast] at hprev
      split at hprev
      · cases hprev
      · next old hold =>
          have he : M[prev]? = some M[prev] := List.getElem?_eq_getElem (by omega)
          have hterm : old.term = M[prev].term := by
            rw [of_decide_eq_true hprev]
            exact hsnap.prevLogTerm prev _ rfl he
          exact ⟨hlog _ _ _ hold he hterm, (List.getElem?_eq_some_iff.1 hold).1⟩

/-- The check of the previous entry on two grounded logs. -/
theorem take_eq_of_prevMatches {canon : ℕ → List (LogEntry Cmd)} {log M : List (LogEntry Cmd)}
    {payload : AppendEntries ν Cmd} {next : ℕ} (hsnap : Snapshot payload M next)
    (hlog : GroundedLog canon log) (hM : GroundedLog canon M) (hnext : next ≤ M.length)
    (hprev : prevMatches log payload.prevLogIndex payload.prevLogTerm = true) :
    log.take next = M.take next ∧ next ≤ log.length :=
  take_eq_of_matching hsnap (hlog.matches hM) hnext hprev

/-- The log that `handle_append_entries` leaves when it accepts a payload. -/
theorem log_of_prevMatches {M : List (LogEntry Cmd)} {node : RaftNode ν Cmd}
    {payload : AppendEntries ν Cmd} {next : ℕ} (hsnap : Snapshot payload M next)
    (hterm : node.currentTerm ≤ payload.term)
    (hprev : prevMatches node.log payload.prevLogIndex payload.prevLogTerm = true) :
    (handleAppendEntries node payload).1.log = appendLoop node.log next (M.drop next) := by
  have hindex : (payload.prevLogIndex + 1).toNat = next := by
    rw [hsnap.prevLogIndex]; omega
  rw [handleAppendEntries_of_match node hterm hprev, applyCommitted_log]
  simp only [storeEntries, acceptLeader_log, hindex, hsnap.entries]

/-- **What an AppendEntries call does to the log of the node that handles it**, when that log
matches the one the payload was built from. -/
theorem log_of_matching {M : List (LogEntry Cmd)} {node : RaftNode ν Cmd}
    {payload : AppendEntries ν Cmd} {next : ℕ} (hsnap : Snapshot payload M next)
    (hlog : Matching LogEntry.term node.log M) :
    (handleAppendEntries node payload).1.log = node.log ∨
      (handleAppendEntries node payload).1.log = overlay node.log M := by
  rcases lt_or_ge payload.term node.currentTerm with hterm | hterm
  · exact .inl (by rw [handleAppendEntries_of_stale node hterm])
  · cases hprev : prevMatches node.log payload.prevLogIndex payload.prevLogTerm with
    | false => exact .inl (by rw [handleAppendEntries_of_mismatch node hterm hprev]; rfl)
    | true =>
        rw [log_of_prevMatches hsnap hterm hprev]
        rcases lt_or_ge M.length next with hlt | hge
        · exact .inl (by rw [List.drop_eq_nil_of_le hlt.le, appendLoop_nil])
        · obtain ⟨htake, hlen⟩ := take_eq_of_matching hsnap hlog hge hprev
          exact .inr (appendLoop_of_matching (M.length - next) next node.log (by omega) hlog
            htake hlen)

/-- The same for two grounded logs. -/
theorem log_handleAppendEntries {canon : ℕ → List (LogEntry Cmd)} {M : List (LogEntry Cmd)}
    {node : RaftNode ν Cmd} {payload : AppendEntries ν Cmd} {next : ℕ}
    (hsnap : Snapshot payload M next) (hlog : GroundedLog canon node.log)
    (hM : GroundedLog canon M) :
    (handleAppendEntries node payload).1.log = node.log ∨
      (handleAppendEntries node payload).1.log = overlay node.log M :=
  log_of_matching hsnap (hlog.matches hM)

/-! ### The frames of tasks and calls -/

section Frames

variable [DecidableEq ν] {M : Membership ν} {s s' : Cluster ν Cmd}
  {callback : ν → ApplyCallback Cmd}

/-- What a task says about its node: the node is a member, and the task is for one of its peers;
if it waits for a call, the call went to that peer with the payload it keeps. -/
structure TaskInv (M : Membership ν) (calls : List (AppendCall ν Cmd)) (n : ν)
    (task : ReplicateTask ν Cmd) : Prop where
  member : n ∈ M.nodes
  peer : task.peer ∈ M.peers n
  call : ∀ call next payload, task.stage = .awaiting call next payload →
    calls[call]? = some ⟨task.peer, payload⟩ ∧ payload.leaderId = n

/-- Leaders are members, tasks and calls are between members, and a task remembers its call. -/
structure FrameInv (M : Membership ν) (s : Cluster ν Cmd) : Prop where
  leader : ∀ n, (s.nodes n).raft.state = .leader → n ∈ M.nodes
  task : ∀ n, ∀ task ∈ (s.nodes n).tasks, TaskInv M s.appendCalls n task
  call : ∀ c ∈ s.appendCalls, c.payload.leaderId ∈ M.nodes ∧ c.peer ∈ M.peers c.payload.leaderId

omit [DecidableEq ν] in
theorem TaskInv.mono {calls calls' : List (AppendCall ν Cmd)} {n : ν} {task : ReplicateTask ν Cmd}
    (h : TaskInv M calls n task) (hpre : calls <+: calls') : TaskInv M calls' n task where
  member := h.member
  peer := h.peer
  call := fun call next payload hstage =>
    let ⟨hcall, hid⟩ := h.call call next payload hstage
    ⟨getElem?_of_isPrefix hpre hcall, hid⟩

omit [DecidableEq ν] in
theorem taskInv_created {calls : List (AppendCall ν Cmd)} {n : ν} {owner : Owner}
    (hn : n ∈ M.nodes) :
    ∀ task ∈ (createTasks owner (M.peers n) : List (ReplicateTask ν Cmd)),
      TaskInv M calls n task := by
  intro task htask
  obtain ⟨peer, hpeer, rfl⟩ := List.mem_map.1 htask
  exact ⟨hn, hpeer, fun _ _ _ hstage => by cases hstage⟩

omit [DecidableEq ν] in
theorem frameInv_initial : FrameInv M (initial callback) :=
  ⟨fun _ h => (by cases h), fun _ _ h => (by cases h), fun _ h => (by cases h)⟩

/-- Calls stay in the network, in their place. -/
theorem Moves.appendCalls_prefix {a : Action ν Cmd} (h : Moves M s a s') :
    s.appendCalls <+: s'.appendCalls := by
  cases h
  case replicateStart => exact List.prefix_append _ _
  all_goals exact List.prefix_refl _

theorem FrameInv.step {a : Action ν Cmd} (hI : FrameInv M s) (hE : ElectionInv M s)
    (h : Moves M s a s') : FrameInv M s' := by
  have hpre := h.appendCalls_prefix
  -- a new leader has started an election, which only members do
  have hleader : ∀ n, (s'.nodes n).raft.state = .leader → n ∈ M.nodes := by
    intro n hn
    rcases h.leader n with hkeep | ⟨-, _, payload, -, hel, -⟩
    · exact hI.leader n (hkeep hn).1
    · exact (hE n payload hel).1
  have hold : ∀ n, ∀ task ∈ (s.nodes n).tasks, TaskInv M s'.appendCalls n task := fun n task htask =>
    (hI.task n task htask).mono hpre
  have key : ∀ {n : ν} {p : Process ν Cmd}, (∀ task ∈ p.tasks, TaskInv M s'.appendCalls n task) →
      ∀ m, ∀ task ∈ ((s.set n p).nodes m).tasks, TaskInv M s'.appendCalls m task := fun hp =>
    Cluster.set_forall (P := fun m p => ∀ task ∈ p.tasks, TaskInv M s'.appendCalls m task) hold hp
  -- tasks that were dropped, kept or appended
  have hfilter : ∀ n (keep : ReplicateTask ν Cmd → Bool),
      ∀ task ∈ (s.nodes n).tasks.filter keep, TaskInv M s'.appendCalls n task :=
    fun n _ task htask => hold n task (List.mem_of_mem_filter htask)
  have happend : ∀ {n : ν} {owner : Owner} {tasks : List (ReplicateTask ν Cmd)}, n ∈ M.nodes →
      (∀ task ∈ tasks, TaskInv M s'.appendCalls n task) →
      ∀ task ∈ tasks ++ createTasks owner (M.peers n), TaskInv M s'.appendCalls n task := by
    intro n owner tasks hn htasks task htask
    rcases List.mem_append.1 htask with htask | htask
    · exact htasks task htask
    · exact taskInv_created hn task htask
  cases h with
  | electionTimeout => exact ⟨hleader, key (hold _), hI.call⟩
  | requestVote => exact ⟨hleader, key (hold _), hI.call⟩
  | electionWon => exact ⟨hleader, key (hfilter _ _), hI.call⟩
  | electionLost => exact ⟨hleader, key (hold _), hI.call⟩
  | appendEntry hn => exact ⟨hleader, key (happend (hI.leader _ hn) (hold _)), hI.call⟩
  | heartbeat _ hn => exact ⟨hleader, key (happend (hI.leader _ hn) (hfilter _ _)), hI.call⟩
  | heartbeatExit => exact ⟨hleader, key (hfilter _ _), hI.call⟩
  | @replicateStart n k owner peer htask =>
      obtain ⟨hn, hpeer, -⟩ := hI.task n _ (List.mem_of_getElem? htask)
      refine ⟨hleader, key fun task hmem => ?_, fun c hc => ?_⟩
      · rcases List.mem_or_eq_of_mem_set hmem with hmem | rfl
        · exact hold n task hmem
        · refine ⟨hn, hpeer, fun call next payload hstage => ?_⟩
          cases hstage
          exact ⟨by simp, rfl⟩
      · rcases List.mem_append.1 hc with hc | hc
        · exact hI.call c hc
        · obtain rfl := List.mem_singleton.1 hc
          exact ⟨hn, hpeer⟩
  | appendEntries => exact ⟨hleader, key (hold _), hI.call⟩
  | @replicateEnd n k reply owner peer call next payload htask =>
      obtain ⟨hn, hpeer, -⟩ := hI.task n _ (List.mem_of_getElem? htask)
      refine ⟨hleader, key fun task hmem => ?_, hI.call⟩
      rcases List.mem_or_eq_of_mem_set hmem with hmem | rfl
      · exact hold n task hmem
      · exact ⟨hn, hpeer, fun _ _ _ hstage => by cases hstage⟩
  | appendEnd => exact ⟨hleader, key (hfilter _ _), hI.call⟩

theorem frameInv_run {ok : Cluster ν Cmd → Action ν Cmd → Prop}
    (h : Run (step M) ok (initial callback) s) : FrameInv M s :=
  (h.invariant (I := fun s => FrameInv M s ∧ ElectionInv M s)
    (fun _ _ _ hI _ hstep => ⟨hI.1.step hI.2 (moves_of_step hstep),
      hI.2.step (moves_of_step hstep)⟩) ⟨frameInv_initial, electionInv_initial⟩).1

end Frames

/-! ### The replication layer -/

/-- A change of leadership at a node, as an election layer may decide it: the new state and term
and, for a new leader, its replication bookkeeping. -/
structure Leadership (ν : Type) where
  node : ν
  state : NodeState
  term : ℕ
  votedFor : Option ν
  nextIndex : ν → ℕ
  matchIndex : ν → ℤ

section Replication

variable [DecidableEq ν] (M : Membership ν) (leaderOf : ℕ → ν)

/-- The node after a change of leadership. -/
def RaftNode.lead (node : RaftNode ν Cmd) (change : Leadership ν) : RaftNode ν Cmd :=
  { node with
    state := change.state
    currentTerm := change.term
    votedFor := change.votedFor
    nextIndex := change.nextIndex
    matchIndex := change.matchIndex }

/-- The cluster, where leadership may also change at will; only terms do not go down. -/
def replicationStep (s : Cluster ν Cmd) :
    Action ν Cmd ⊕ Leadership ν → Option (Cluster ν Cmd)
  | .inl a => step M s a
  | .inr change =>
      let p := s.nodes change.node
      if change.node ∈ M.nodes ∧ p.raft.currentTerm ≤ change.term then
        some (s.set change.node { p with raft := p.raft.lead change })
      else none

/-- **One source for each term**: an entry of a term is appended, and a payload of it is built, by
the one node that `leaderOf` names, while that node is leader. -/
def SingleSource (s : Cluster ν Cmd) : Action ν Cmd ⊕ Leadership ν → Prop
  | .inl (.appendEntry n _) => leaderOf (s.nodes n).raft.currentTerm = n
  | .inl (.replicateStart n _) =>
      (s.nodes n).raft.state = .leader ∧ leaderOf (s.nodes n).raft.currentTerm = n
  | _ => True

instance (s : Cluster ν Cmd) : DecidablePred (SingleSource leaderOf s)
  | .inl (.appendEntry _ _) => inferInstanceAs (Decidable (_ = _))
  | .inl (.replicateStart _ _) => inferInstanceAs (Decidable (_ ∧ _))
  | .inl (.electionTimeout _) | .inl (.requestVote _ _) | .inl (.electionResult _ _)
  | .inl (.heartbeat _) | .inl (.appendEntries _) | .inl (.replicateEnd _ _ _)
  | .inl (.appendEnd _ _) | .inr _ => .isTrue trivial

/-- The invariant of the replication layer, for the canonical logs `canon`: all logs are grounded;
the canonical log of a term is the log of its leader as long as the leader is in that term; and
every payload was built by the leader of its term from a grounded log. -/
structure LogInv (canon : ℕ → List (LogEntry Cmd)) (s : Cluster ν Cmd) : Prop where
  log : ∀ n, GroundedLog canon (s.nodes n).raft.log
  term : ∀ T, canon T ≠ [] → T ≤ (s.nodes (leaderOf T)).raft.currentTerm
  own : ∀ T, canon T ≠ [] → (s.nodes (leaderOf T)).raft.currentTerm = T →
    (s.nodes (leaderOf T)).raft.log = canon T
  call : ∀ c ∈ s.appendCalls, c.payload.leaderId = leaderOf c.payload.term ∧
    ∃ L next, GroundedLog canon L ∧ Snapshot c.payload L next

variable {M leaderOf} {canon : ℕ → List (LogEntry Cmd)} {s s' : Cluster ν Cmd}
  {callback : ν → ApplyCallback Cmd}

omit [DecidableEq ν] in
/-- A step that keeps all logs, makes no call, and raises a term or leaves it alone, keeps the
invariant. -/
theorem LogInv.of_terms (hI : LogInv leaderOf canon s)
    (hlog : ∀ n, (s'.nodes n).raft.log = (s.nodes n).raft.log)
    (hterm : ∀ n, (s.nodes n).raft.currentTerm ≤ (s'.nodes n).raft.currentTerm)
    (hcalls : s'.appendCalls = s.appendCalls) : LogInv leaderOf canon s' where
  log := fun n => hlog n ▸ hI.log n
  term := fun T hT => (hI.term T hT).trans (hterm _)
  own := by
    intro T hT heq
    have hle := hterm (leaderOf T)
    rw [heq] at hle
    rw [hlog]
    exact hI.own T hT (le_antisymm hle (hI.term T hT))
  call := fun c hc => hI.call c (hcalls ▸ hc)

/-- The leader of a term appends an entry: its log becomes the canonical log of the term. -/
theorem LogInv.append (hI : LogInv leaderOf canon s) {n : ν} {command : Cmd}
    (hsource : leaderOf (s.nodes n).raft.currentTerm = n) {p : Process ν Cmd}
    (hp : p.raft = (appendEntry (s.nodes n).raft command).1) :
    ∃ canon', LogInv leaderOf canon' (s.set n p) := by
  set T := (s.nodes n).raft.currentTerm with hT
  set log := (s.nodes n).raft.log with hlog
  set entry : LogEntry Cmd := ⟨T, command⟩ with hentry
  have hpterm : p.raft.currentTerm = T := by rw [hp]; rfl
  have hplog : p.raft.log = log ++ [entry] := by rw [hp]; rfl
  -- so far the canonical log of the term was empty or the log of `n`
  have hcanon : canon T <+: log := by
    by_cases hnil : canon T = []
    · rw [hnil]; exact List.nil_prefix
    · rw [← hI.own T hnil (by rw [hsource]), hsource]
  have hgrow : ∀ T', canon T' <+: Function.update canon T (log ++ [entry]) T' := by
    intro T'
    by_cases hT' : T' = T
    · subst hT'
      rw [Function.update_self]
      exact hcanon.trans (List.prefix_append _ _)
    · rw [Function.update_of_ne hT']
  refine ⟨Function.update canon T (log ++ [entry]), ?_, ?_, ?_, ?_⟩
  · refine Cluster.set_forall (P := fun _ p => GroundedLog _ p.raft.log)
      (fun m => (hI.log m).mono hgrow) ?_
    rw [hplog]
    exact (hI.log n).snoc hgrow (Function.update_self _ _ _)
  · intro T' hne
    by_cases hT' : T' = T
    · subst hT'
      rw [hsource, Cluster.set_nodes_self, hpterm]
    · rw [Function.update_of_ne hT'] at hne
      refine Cluster.set_forall (P := fun m p => leaderOf T' = m → T' ≤ p.raft.currentTerm)
        (fun m hm => hm ▸ hI.term T' hne) (fun hm => ?_) _ rfl
      rw [hpterm, hT, ← hm]
      exact hI.term T' hne
  · intro T' hne
    by_cases hT' : T' = T
    · subst hT'
      rw [hsource, Cluster.set_nodes_self, hplog, Function.update_self]
      exact fun _ => rfl
    · rw [Function.update_of_ne hT'] at hne ⊢
      refine Cluster.set_forall
        (P := fun m p => leaderOf T' = m → p.raft.currentTerm = T' → p.raft.log = canon T')
        (fun m hm hterm => ?_) (fun _ hterm => absurd (hterm.symm.trans hpterm) hT') _ rfl
      subst hm
      exact hI.own T' hne hterm
  · intro c hc
    obtain ⟨hid, L, next, hL, hsnap⟩ := hI.call c hc
    exact ⟨hid, L, next, hL.mono hgrow, hsnap⟩

/-- A peer handles a payload of the leader of a term. -/
theorem LogInv.handle (hI : LogInv leaderOf canon s) (hF : FrameInv M s)
    {c : AppendCall ν Cmd} (hc : c ∈ s.appendCalls) {p : Process ν Cmd}
    (hp : p.raft = (handleAppendEntries (s.nodes c.peer).raft c.payload).1)
    {replies : List (ℕ × AppendReply)} :
    LogInv leaderOf canon { s.set c.peer p with appendReplies := replies } := by
  obtain ⟨hid, L, next, hL, hsnap⟩ := hI.call c hc
  obtain ⟨hmem, hpeer⟩ := hF.call c hc
  -- a node never handles a payload of its own
  have hne : c.peer ≠ leaderOf c.payload.term := hid ▸ ((M.mem_peers hmem).1 hpeer).2
  have hpterm : p.raft.currentTerm =
      max (s.nodes c.peer).raft.currentTerm c.payload.term := by
    rw [hp, handleAppendEntries_currentTerm]
  have hplog := log_handleAppendEntries hsnap (hI.log c.peer) hL
  rw [← hp] at hplog
  refine ⟨?_, ?_, ?_, hI.call⟩
  · refine Cluster.set_forall (P := fun _ p => GroundedLog _ p.raft.log) hI.log ?_
    rcases hplog with h | h <;> rw [h]
    · exact hI.log c.peer
    · exact (hI.log c.peer).overlay hL
  · intro T hT
    refine Cluster.set_forall (P := fun m p => leaderOf T = m → T ≤ p.raft.currentTerm)
      (fun m hm => hm ▸ hI.term T hT) (fun hm => ?_) _ rfl
    rw [hpterm, ← hm]
    exact (hI.term T hT).trans (le_max_left _ _)
  · intro T hT
    refine Cluster.set_forall
      (P := fun m p => leaderOf T = m → p.raft.currentTerm = T → p.raft.log = canon T)
      (fun m hm hterm => ?_) (fun hm hterm => ?_) _ rfl
    · subst hm
      exact hI.own T hT hterm
    · -- the leader of `T` is still in `T`, so the payload is stale
      have hle := hI.term T hT
      rw [hm] at hle
      rcases lt_or_ge c.payload.term (s.nodes c.peer).raft.currentTerm with hlt | hge
      · rw [hp, handleAppendEntries_of_stale _ hlt] at hterm ⊢
        have hown := hI.own T hT
        rw [hm] at hown
        exact hown hterm
      · rw [hpterm, max_eq_right hge] at hterm
        exact absurd (hterm ▸ hm).symm hne

/-- The leader of a term builds a payload from its log. -/
theorem LogInv.send (hI : LogInv leaderOf canon s) {n peer : ν}
    (hsource : leaderOf (s.nodes n).raft.currentTerm = n) {p : Process ν Cmd}
    (hp : p.raft = (s.nodes n).raft) :
    LogInv leaderOf canon { s.set n p with
      appendCalls := s.appendCalls ++ [⟨peer, replicateToPeer n (s.nodes n).raft peer⟩] } := by
  have hraft : ∀ m, ((s.set n p).nodes m).raft = (s.nodes m).raft := fun m =>
    Cluster.set_rel (R := fun q q' => q'.raft = q.raft) (fun _ => rfl) hp m
  refine ⟨fun m => ?_, fun T hT => ?_, fun T hT => ?_, fun c hc => ?_⟩
  · rw [hraft]; exact hI.log m
  · rw [hraft]; exact hI.term T hT
  · rw [hraft]; exact hI.own T hT
  · rcases List.mem_append.1 hc with hc | hc
    · exact hI.call c hc
    · obtain rfl := List.mem_singleton.1 hc
      exact ⟨hsource.symm, _, _, hI.log n, snapshot_replicateToPeer n _ peer⟩

theorem LogInv.step {a : Action ν Cmd ⊕ Leadership ν} (hI : LogInv leaderOf canon s)
    (hF : FrameInv M s) (hok : SingleSource leaderOf s a)
    (hstep : replicationStep M s a = some s') : ∃ canon', LogInv leaderOf canon' s' := by
  have hraft : ∀ {n : ν} {p : Process ν Cmd}, p.raft.log = (s.nodes n).raft.log →
      ∀ m, ((s.set n p).nodes m).raft.log = (s.nodes m).raft.log := fun hp =>
    Cluster.set_rel (R := fun q q' => q'.raft.log = q.raft.log) (fun _ => rfl) hp
  cases a with
  | inl a =>
      have h := moves_of_step hstep
      have hterm := fun m => (h.keepsVote m).1
      cases h with
      | electionTimeout => exact ⟨canon, hI.of_terms (hraft rfl) hterm rfl⟩
      | requestVote => exact ⟨canon, hI.of_terms (hraft (by simp)) hterm rfl⟩
      | electionWon => exact ⟨canon, hI.of_terms (hraft rfl) hterm rfl⟩
      | electionLost => exact ⟨canon, hI.of_terms (hraft rfl) hterm rfl⟩
      | appendEntry => exact hI.append hok rfl
      | heartbeat => exact ⟨canon, hI.of_terms (hraft rfl) hterm rfl⟩
      | heartbeatExit => exact ⟨canon, hI.of_terms (hraft rfl) hterm rfl⟩
      | replicateStart => exact ⟨canon, hI.send hok.2 rfl⟩
      | appendEntries hcall => exact ⟨canon, hI.handle hF (List.mem_of_getElem? hcall) rfl⟩
      | replicateEnd => exact ⟨canon, hI.of_terms (hraft (by simp)) hterm rfl⟩
      | appendEnd => exact ⟨canon, hI.of_terms (hraft (by simp)) hterm rfl⟩
  | inr change =>
      simp only [replicationStep, Option.ite_none_right_eq_some, Option.some.injEq] at hstep
      obtain ⟨⟨-, hterm⟩, rfl⟩ := hstep
      refine ⟨canon, hI.of_terms (hraft rfl) (fun m => ?_) rfl⟩
      exact Cluster.set_rel (R := fun q q' => q.raft.currentTerm ≤ q'.raft.currentTerm)
        (fun _ => le_rfl) hterm m

theorem FrameInv.lead (hF : FrameInv M s) (hE : ElectionInv M s) {change : Leadership ν}
    (hn : change.node ∈ M.nodes) {p : Process ν Cmd} (htasks : p.tasks = (s.nodes change.node).tasks)
    (hel : p.election = (s.nodes change.node).election) :
    FrameInv M (s.set change.node p) ∧ ElectionInv M (s.set change.node p) := by
  refine ⟨⟨?_, ?_, hF.call⟩, ?_⟩
  · exact Cluster.set_forall (P := fun m p => p.raft.state = .leader → m ∈ M.nodes) hF.leader
      fun _ => hn
  · exact Cluster.set_forall (P := fun m p => ∀ task ∈ p.tasks, TaskInv M s.appendCalls m task)
      hF.task (htasks ▸ hF.task change.node)
  · exact Cluster.set_forall (P := fun m p => ∀ payload, p.election = some payload →
      m ∈ M.nodes ∧ payload ∈ s.voteCalls ∧ payload.candidateId = m) hE (hel ▸ hE change.node)

/-- **The invariant of the replication layer holds in every run with one source for each term.** -/
theorem logInv_run (h : Run (replicationStep M) (SingleSource leaderOf) (initial callback) s) :
    ∃ canon, LogInv leaderOf canon s := by
  have hall := h.invariant
    (I := fun s => (FrameInv M s ∧ ElectionInv M s) ∧ ∃ canon, LogInv leaderOf canon s)
    (fun s a s' hI hok hstep => ?_) ⟨⟨frameInv_initial, electionInv_initial⟩, fun _ => [], ?_⟩
  · exact hall.2
  · obtain ⟨⟨hF, hE⟩, canon, hL⟩ := hI
    refine ⟨?_, hL.step hF hok hstep⟩
    cases a with
    | inl a => exact ⟨hF.step hE (moves_of_step hstep), hE.step (moves_of_step hstep)⟩
    | inr change =>
        simp only [replicationStep, Option.ite_none_right_eq_some, Option.some.injEq] at hstep
        obtain ⟨⟨hn, -⟩, rfl⟩ := hstep
        exact hF.lead hE hn rfl rfl
  · exact ⟨fun _ => grounded_nil, fun _ h => absurd rfl h, fun _ h => absurd rfl h,
      fun _ h => (by cases h)⟩

/-- **Log matching.**  When the entries and payloads of each term come from one leader of it, two
logs with entries of the same term at an index are the same up to that index, whatever is lost,
late or repeated, and however leadership moves. -/
theorem logMatching (h : Run (replicationStep M) (SingleSource leaderOf) (initial callback) s)
    {n m : ν} {i : ℕ} {e e' : LogEntry Cmd} (hn : (s.nodes n).raft.log[i]? = some e)
    (hm : (s.nodes m).raft.log[i]? = some e') (hterm : e.term = e'.term) :
    (s.nodes n).raft.log.take (i + 1) = (s.nodes m).raft.log.take (i + 1) := by
  obtain ⟨canon, hI⟩ := logInv_run h
  exact (hI.log n).matching (hI.log m) hn hm hterm

/-- Node 0 leads term 1, appends 7 and sends it to node 1. -/
def firstEntry : List (Action (Fin 3) ℕ ⊕ Leadership (Fin 3)) :=
  [.inr ⟨0, .leader, 1, some 0, fun _ => 0, fun _ => -1⟩, .inl (.appendEntry 0 7),
    .inl (.replicateStart 0 0), .inl (.appendEntries 0)]

/-- The two copies of that entry. -/
theorem logMatching_firstEntry :
    ∃ s : Cluster (Fin 3) ℕ,
      Run (replicationStep trio) (SingleSource fun _ => 0) (initial returning) s ∧
      (s.nodes 0).raft.log.take 1 = (s.nodes 1).raft.log.take 1 := by
  obtain ⟨s, hs, h0, h1⟩ := Run.exists_of_exec (replicationStep trio) (SingleSource fun _ => 0)
    (initial returning) firstEntry (fun s => (s.nodes 0).raft.log[0]? = some ⟨1, 7⟩ ∧
      (s.nodes 1).raft.log[0]? = some ⟨1, 7⟩) (by decide)
  exact ⟨s, hs, logMatching hs h0 h1 rfl⟩

end Replication

end Raft
