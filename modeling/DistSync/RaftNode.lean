/-
**One Raft node: its state, its RPC handlers and the local parts of its coroutines.**

This module is a transcription of `consensus/raft.py`.  A coroutine of the source runs without
interruption between two awaits; each function here is one such stretch, taking the state of the
node to its next state together with what is returned, sent, or kept in the frame of the
suspended coroutine.  How the stretches interleave is `DistSync/RaftCluster.lean`.

The state lock of a node is never held across an await, so no stretch ever finds it taken and it
does not appear.  Timestamps only decide *when* an election starts and are left out too: the
cluster lets an election start at any moment.

Main definitions:

* `Raft.RaftNode`, `Raft.init` — the fields of a node and their initial values;
* `Raft.handleRequestVote`, `Raft.handleAppendEntries` — the two RPC handlers;
* `Raft.startElection`, `Raft.countVotes`, `Raft.becomeLeader` — an election;
* `Raft.appendEntry`, `Raft.replicateToPeer`, `Raft.replicateReply`, `Raft.replicateLog`,
  `Raft.advanceCommitIndex`, `Raft.concludeAppend` — the replication of an entry;
* `Raft.applyCommitted` — feeding committed commands to the state machine.
-/

import Mathlib.Data.List.Sort
import Mathlib.Logic.Function.Basic

set_option relaxedAutoImplicit false
set_option autoImplicit false

namespace Raft

variable {ν Cmd : Type}

/-! ### The state of a node -/

/-- An entry of the replicated log. -/
structure LogEntry (Cmd : Type) where
  term : ℕ
  command : Cmd
deriving DecidableEq, Repr

/-- The three values of the field `state`. -/
inductive NodeState
  | follower
  | candidate
  | leader
deriving DecidableEq, Repr

/-- What `apply_callback` does when it is called with a command after calls with the given ones:
`true` when it returns, `false` when it raises. -/
abbrev ApplyCallback (Cmd : Type) := List Cmd → Cmd → Bool

/-- The fields of a node.  The dictionaries `next_index` and `match_index` are keyed by the peers
from the start and are only ever read and written there, so they are total functions here.
`applied` is not a field of the source: it lists the calls of `apply_callback` made so far, each
with the log index whose command was passed. -/
structure RaftNode (ν Cmd : Type) where
  applyCallback : ApplyCallback Cmd
  state : NodeState
  currentTerm : ℕ
  votedFor : Option ν
  log : List (LogEntry Cmd)
  commitIndex : ℤ
  lastApplied : ℤ
  nextIndex : ν → ℕ
  matchIndex : ν → ℤ
  leaderId : Option ν
  applied : List (ℤ × Cmd)

/-- The state that `__init__` sets up. -/
def init (applyCallback : ApplyCallback Cmd) : RaftNode ν Cmd where
  applyCallback := applyCallback
  state := .follower
  currentTerm := 0
  votedFor := none
  log := []
  commitIndex := -1
  lastApplied := -1
  nextIndex := fun _ => 0
  matchIndex := fun _ => -1
  leaderId := none
  applied := []

/-- The number of votes or copies that decide, for a node with the given peers. -/
def majority (peers : List ν) : ℕ := (peers.length + 1) / 2 + 1

/-! ### Messages -/

/-- The payload of a `/raft/request_vote` call. -/
structure RequestVote (ν : Type) where
  term : ℕ
  candidateId : ν
  lastLogIndex : ℤ
  lastLogTerm : ℕ
deriving DecidableEq, Repr

/-- The answer to a `/raft/request_vote` call. -/
structure VoteReply where
  term : ℕ
  voteGranted : Bool
deriving DecidableEq, Repr

/-- The payload of a `/raft/append_entries` call. -/
structure AppendEntries (ν Cmd : Type) where
  term : ℕ
  leaderId : ν
  prevLogIndex : ℤ
  prevLogTerm : ℕ
  entries : List (LogEntry Cmd)
  leaderCommit : ℤ
deriving DecidableEq, Repr

/-- The answer to a `/raft/append_entries` call. -/
structure AppendReply where
  term : ℕ
  success : Bool
deriving DecidableEq, Repr

/-! ### Applying committed entries -/

/-- `k` rounds of the loop of `_apply_committed`.  The second component is `false` when reading
the log raises `IndexError`, or the callback raises; either happens after `last_applied` was
advanced. -/
def applyLoop : ℕ → RaftNode ν Cmd → RaftNode ν Cmd × Bool
  | 0, node => (node, true)
  | k + 1, node =>
      let lastApplied := node.lastApplied + 1
      match node.log[lastApplied.toNat]? with
      | none => ({ node with lastApplied := lastApplied }, false)
      | some entry =>
          let returns := node.applyCallback (node.applied.map Prod.snd) entry.command
          let node := { node with
            lastApplied := lastApplied
            applied := node.applied ++ [(lastApplied, entry.command)] }
          if returns = true then applyLoop k node else (node, false)

/-- `_apply_committed`, for a callback that does not suspend: the loop runs until `last_applied`
has reached `commit_index`. -/
def applyCommitted (node : RaftNode ν Cmd) : RaftNode ν Cmd × Bool :=
  applyLoop (node.commitIndex - node.lastApplied).toNat node

/-! ### Elections -/

/-- `_is_log_up_to_date`: whether a candidate's log may win the vote of this node. -/
def isLogUpToDate (node : RaftNode ν Cmd) (lastLogIndex : ℤ) (lastLogTerm : ℕ) : Bool :=
  match node.log.getLast? with
  | none => true
  | some last =>
      if lastLogTerm ≠ last.term then decide (last.term < lastLogTerm)
      else decide ((node.log.length : ℤ) - 1 ≤ lastLogIndex)

/-- The common prologue of a handler that sees a higher term in a vote request. -/
def adoptTerm (node : RaftNode ν Cmd) (term : ℕ) : RaftNode ν Cmd :=
  if node.currentTerm < term then
    { node with currentTerm := term, votedFor := none, state := .follower }
  else node

/-- `handle_request_vote`. -/
def handleRequestVote [DecidableEq ν] (node : RaftNode ν Cmd) (data : RequestVote ν) :
    RaftNode ν Cmd × VoteReply :=
  if data.term < node.currentTerm then (node, ⟨node.currentTerm, false⟩)
  else
    let node := adoptTerm node data.term
    let canVote := node.votedFor = none ∨ node.votedFor = some data.candidateId
    if canVote ∧ isLogUpToDate node data.lastLogIndex data.lastLogTerm = true then
      ({ node with votedFor := some data.candidateId }, ⟨node.currentTerm, true⟩)
    else (node, ⟨node.currentTerm, false⟩)

/-- The first stretch of `_start_election`: the node votes for itself in a new term and builds the
payload that goes to every peer. -/
def startElection (self : ν) (node : RaftNode ν Cmd) : RaftNode ν Cmd × RequestVote ν :=
  ({ node with
      state := .candidate
      currentTerm := node.currentTerm + 1
      votedFor := some self },
    { term := node.currentTerm + 1
      candidateId := self
      lastLogIndex := (node.log.length : ℤ) - 1
      lastLogTerm := match node.log.getLast? with
        | none => 0
        | some last => last.term })

/-- The tally of `_start_election`: the node's own vote and the granted ones among the answers. -/
def countVotes (results : List VoteReply) : ℕ := 1 + results.countP (·.voteGranted)

/-- `_become_leader`, up to the creation of the heartbeat task.  The term is not looked at. -/
def becomeLeader [DecidableEq ν] (self : ν) (peers : List ν) (node : RaftNode ν Cmd) :
    RaftNode ν Cmd :=
  { node with
    state := .leader
    leaderId := some self
    -- the loop goes over the peers only
    nextIndex := fun peer => if peer ∈ peers then node.log.length else node.nextIndex peer
    matchIndex := fun peer => if peer ∈ peers then -1 else node.matchIndex peer }

/-! ### Handling AppendEntries -/

/-- The entry loop of `handle_append_entries`, at position `index` of the log: an entry whose term
differs is cut off with everything behind it, and an entry right behind the end is appended. -/
def appendLoop (log : List (LogEntry Cmd)) (index : ℕ) :
    List (LogEntry Cmd) → List (LogEntry Cmd)
  | [] => log
  | entry :: entries =>
      let log := match log[index]? with
        | some old => if old.term ≠ entry.term then log.take index else log
        | none => log
      -- an entry beyond the end of the log is left out
      let log := if index = log.length then log ++ [entry] else log
      appendLoop log (index + 1) entries

/-- The check of the previous entry: `prev_log_index` is in the log and holds `prev_log_term`. -/
def prevMatches (log : List (LogEntry Cmd)) (prevLogIndex : ℤ) (prevLogTerm : ℕ) : Bool :=
  if 0 ≤ prevLogIndex then
    match log[prevLogIndex.toNat]? with
    | none => false
    | some prev => decide (prev.term = prevLogTerm)
  else true

/-- What `handle_append_entries` does to the node before it looks at the log. -/
def acceptLeader (node : RaftNode ν Cmd) (term : ℕ) (leaderId : ν) : RaftNode ν Cmd :=
  { node with
    leaderId := some leaderId
    currentTerm := if node.currentTerm < term then term else node.currentTerm
    votedFor := if node.currentTerm < term then none else node.votedFor
    state := .follower }

/-- The part of `handle_append_entries` that writes the entries and raises `commit_index`. -/
def storeEntries (node : RaftNode ν Cmd) (data : AppendEntries ν Cmd) : RaftNode ν Cmd :=
  let log := appendLoop node.log (data.prevLogIndex + 1).toNat data.entries
  { node with
    log := log
    commitIndex :=
      if node.commitIndex < data.leaderCommit then min data.leaderCommit ((log.length : ℤ) - 1)
      else node.commitIndex }

/-- `handle_append_entries`.  There is no answer when `_apply_committed` raises. -/
def handleAppendEntries (node : RaftNode ν Cmd) (data : AppendEntries ν Cmd) :
    RaftNode ν Cmd × Option AppendReply :=
  if data.term < node.currentTerm then (node, some ⟨node.currentTerm, false⟩)
  else
    let node := acceptLeader node data.term data.leaderId
    if prevMatches node.log data.prevLogIndex data.prevLogTerm = true then
      let done := applyCommitted (storeEntries node data)
      (done.1, if done.2 = true then some ⟨done.1.currentTerm, true⟩ else none)
    else (node, some ⟨node.currentTerm, false⟩)

/-! ### Replicating an entry -/

/-- The first stretch of `append_entry` after the leader check: the new log, the entry and its
index, which the coroutine keeps. -/
def appendEntry (node : RaftNode ν Cmd) (command : Cmd) : RaftNode ν Cmd × LogEntry Cmd × ℕ :=
  let entry : LogEntry Cmd := ⟨node.currentTerm, command⟩
  ({ node with log := node.log ++ [entry] }, entry, node.log.length)

/-- The first stretch of `_replicate_to_peer`: the payload, built from the state the node has when
the task gets to run. -/
def replicateToPeer (self : ν) (node : RaftNode ν Cmd) (peer : ν) : AppendEntries ν Cmd :=
  let nextIndex := node.nextIndex peer
  let prevIndex : ℤ := (nextIndex : ℤ) - 1
  { term := node.currentTerm
    leaderId := self
    prevLogIndex := prevIndex
    prevLogTerm :=
      if 0 ≤ prevIndex then
        match node.log[prevIndex.toNat]? with
        | none => 0
        | some prev => prev.term
      else 0
    entries := node.log.drop nextIndex
    leaderCommit := node.commitIndex }

/-- The second stretch of `_replicate_to_peer`, with the values it kept over the call; `none`
stands for a call that failed.  The term of the answer is not looked at. -/
def replicateReply [DecidableEq ν] (node : RaftNode ν Cmd) (peer : ν) (nextIndex : ℕ)
    (numEntries : ℕ) : Option AppendReply → RaftNode ν Cmd × Bool
  | none => (node, false)
  | some reply =>
      if reply.success = true then
        ({ node with
            matchIndex := Function.update node.matchIndex peer ((nextIndex + numEntries : ℕ) - 1 : ℤ)
            nextIndex := Function.update node.nextIndex peer (nextIndex + numEntries) }, true)
      -- `max(0, next_index - 1)`
      else ({ node with nextIndex := Function.update node.nextIndex peer (nextIndex - 1) }, false)

/-- What has become of a replication task when `_replicate_log` stops waiting. -/
inductive TaskOutcome
  | returned (result : Bool)
  | raised
  | cancelled
  | pending
deriving DecidableEq, Repr

/-- An element of the list `results` of `_replicate_log`. -/
inductive TaskResult
  | value (result : Bool)
  | exception
  | cancelledError
deriving DecidableEq, Repr

/-- The results collected after the timeout: finished tasks are asked for their result, which
raises again what a task raised, and pending ones are cancelled. -/
def timeoutResults : List TaskOutcome → Option (List TaskResult)
  | [] => some []
  | .returned result :: rest => (timeoutResults rest).map (.value result :: ·)
  | .raised :: _ => none
  | .cancelled :: rest => timeoutResults rest
  | .pending :: rest => timeoutResults rest

/-- The results of `gather(..., return_exceptions=True)`, when every task has finished. -/
def gatherResults : List TaskOutcome → Option (List TaskResult)
  | [] => some []
  | .returned result :: rest => (gatherResults rest).map (.value result :: ·)
  | .raised :: rest => (gatherResults rest).map (.exception :: ·)
  | .cancelled :: rest => (gatherResults rest).map (.cancelledError :: ·)
  | .pending :: _ => none

/-- Whether a result adds to `successes`.  `CancelledError` is not an `Exception` and is truthy. -/
def TaskResult.counts : TaskResult → Bool
  | .value result => result
  | .exception => false
  | .cancelledError => true

/-- The value of `successes` in `_replicate_log`: on the normal path when all tasks have finished,
on the path of the timeout otherwise; `none` when `_replicate_log` raises. -/
def replicateLog (outcomes : List TaskOutcome) : Option ℕ :=
  ((gatherResults outcomes).orElse fun _ => timeoutResults outcomes).map
    fun results => 1 + results.countP TaskResult.counts

/-- `_advance_commit_index`.  The second component is `false` when it raises. -/
def advanceCommitIndex (peers : List ν) (node : RaftNode ν Cmd) : RaftNode ν Cmd × Bool :=
  let matchIndexes :=
    (peers.map node.matchIndex ++ [(node.log.length : ℤ) - 1]).insertionSort (· ≥ ·)
  match matchIndexes[majority peers - 1]? with
  | none => (node, false)
  | some majorityIndex =>
      if node.commitIndex < majorityIndex then
        match node.log[majorityIndex.toNat]? with
        | none => (node, false)
        | some entry =>
            if entry.term = node.currentTerm then
              applyCommitted { node with commitIndex := majorityIndex }
            -- an entry of an earlier term is not committed by counting its copies
            else applyCommitted node
      else applyCommitted node

/-- The last stretch of `append_entry`, after a successful replication.  Neither the state nor the
term nor the log of the node is looked at. -/
def commitEntry (node : RaftNode ν Cmd) (entryIndex : ℕ) : RaftNode ν Cmd × Bool :=
  applyCommitted { node with
    commitIndex := if node.commitIndex < entryIndex then entryIndex else node.commitIndex }

/-- What follows in `append_entry` once `_replicate_log` has counted its successes; the second
component says whether `append_entry` returns `True`. -/
def concludeAppend (peers : List ν) (node : RaftNode ν Cmd) (entryIndex : ℕ) :
    Option ℕ → RaftNode ν Cmd × Bool
  | none => (node, false)
  | some successes =>
      if majority peers ≤ successes then
        match advanceCommitIndex peers node with
        | (node, false) => (node, false)
        | (node, true) => commitEntry node entryIndex
      else (node, false)

/-! ### What the handlers leave alone -/

section Frame

variable {κ : Type*} (node : RaftNode ν Cmd)

theorem applyLoop_frame (f : RaftNode ν Cmd → κ)
    (hf : ∀ node lastApplied applied, f { node with lastApplied, applied } = f node) :
    ∀ k node, f (applyLoop k node).1 = f node := by
  intro k
  induction k with
  | zero => intro node; rfl
  | succ k ih =>
      intro node
      simp only [applyLoop]
      split
      · exact hf node _ node.applied
      · split
        · rw [ih, hf]
        · exact hf node _ _

/-- Applying committed entries only moves `last_applied`. -/
theorem applyCommitted_frame (f : RaftNode ν Cmd → κ)
    (hf : ∀ node lastApplied applied, f { node with lastApplied, applied } = f node) :
    f (applyCommitted node).1 = f node :=
  applyLoop_frame f hf _ node

@[simp] theorem applyCommitted_state : (applyCommitted node).1.state = node.state :=
  applyCommitted_frame node (·.state) fun _ _ _ => rfl

@[simp] theorem applyCommitted_currentTerm :
    (applyCommitted node).1.currentTerm = node.currentTerm :=
  applyCommitted_frame node (·.currentTerm) fun _ _ _ => rfl

@[simp] theorem applyCommitted_votedFor : (applyCommitted node).1.votedFor = node.votedFor :=
  applyCommitted_frame node (·.votedFor) fun _ _ _ => rfl

@[simp] theorem applyCommitted_log : (applyCommitted node).1.log = node.log :=
  applyCommitted_frame node (·.log) fun _ _ _ => rfl

@[simp] theorem applyCommitted_commitIndex :
    (applyCommitted node).1.commitIndex = node.commitIndex :=
  applyCommitted_frame node (·.commitIndex) fun _ _ _ => rfl

theorem advanceCommitIndex_frame (f : RaftNode ν Cmd → κ)
    (hf : ∀ node commitIndex lastApplied applied,
      f { node with commitIndex, lastApplied, applied } = f node) (peers : List ν) :
    f (advanceCommitIndex peers node).1 = f node := by
  have happly : ∀ node, f (applyCommitted node).1 = f node := fun node =>
    applyCommitted_frame node f fun node _ _ => hf node node.commitIndex _ _
  simp only [advanceCommitIndex]
  split
  · rfl
  · split
    · split
      · rfl
      · split
        · rw [happly]
          exact hf node _ node.lastApplied node.applied
        · exact happly node
    · exact happly node

/-- Concluding an `append_entry` only moves `commit_index` and `last_applied`. -/
theorem concludeAppend_frame (f : RaftNode ν Cmd → κ)
    (hf : ∀ node commitIndex lastApplied applied,
      f { node with commitIndex, lastApplied, applied } = f node)
    (peers : List ν) (entryIndex : ℕ) (successes : Option ℕ) :
    f (concludeAppend peers node entryIndex successes).1 = f node := by
  have hadvance := advanceCommitIndex_frame node f hf peers
  cases successes with
  | none => rfl
  | some successes =>
      simp only [concludeAppend]
      split
      · split
        · next h => rw [h] at hadvance; exact hadvance
        · next node' h =>
            rw [h] at hadvance
            rw [commitEntry, applyCommitted_frame _ f fun node _ _ => hf node node.commitIndex _ _,
              hf node' _ node'.lastApplied node'.applied]
            exact hadvance
      · rfl

variable (peers : List ν) (entryIndex : ℕ) (successes : Option ℕ)

@[simp] theorem concludeAppend_state :
    (concludeAppend peers node entryIndex successes).1.state = node.state :=
  concludeAppend_frame node (·.state) (fun _ _ _ _ => rfl) peers entryIndex successes

@[simp] theorem concludeAppend_currentTerm :
    (concludeAppend peers node entryIndex successes).1.currentTerm = node.currentTerm :=
  concludeAppend_frame node (·.currentTerm) (fun _ _ _ _ => rfl) peers entryIndex successes

@[simp] theorem concludeAppend_votedFor :
    (concludeAppend peers node entryIndex successes).1.votedFor = node.votedFor :=
  concludeAppend_frame node (·.votedFor) (fun _ _ _ _ => rfl) peers entryIndex successes

@[simp] theorem concludeAppend_log :
    (concludeAppend peers node entryIndex successes).1.log = node.log :=
  concludeAppend_frame node (·.log) (fun _ _ _ _ => rfl) peers entryIndex successes

@[simp] theorem concludeAppend_matchIndex :
    (concludeAppend peers node entryIndex successes).1.matchIndex = node.matchIndex :=
  concludeAppend_frame node (·.matchIndex) (fun _ _ _ _ => rfl) peers entryIndex successes

end Frame

section Reply

variable [DecidableEq ν] (node : RaftNode ν Cmd) (peer : ν) (nextIndex numEntries : ℕ)
  (reply : Option AppendReply)

/-- A reply to a replication call only moves `next_index` and `match_index`. -/
theorem replicateReply_frame {κ : Type*} (f : RaftNode ν Cmd → κ)
    (hf : ∀ node nextIndex matchIndex, f { node with nextIndex, matchIndex } = f node) :
    f (replicateReply node peer nextIndex numEntries reply).1 = f node := by
  cases reply with
  | none => rfl
  | some reply =>
      simp only [replicateReply]
      split
      · exact hf node _ _
      · exact hf node _ node.matchIndex

@[simp] theorem replicateReply_state :
    (replicateReply node peer nextIndex numEntries reply).1.state = node.state :=
  replicateReply_frame node peer nextIndex numEntries reply (·.state) fun _ _ _ => rfl

@[simp] theorem replicateReply_currentTerm :
    (replicateReply node peer nextIndex numEntries reply).1.currentTerm = node.currentTerm :=
  replicateReply_frame node peer nextIndex numEntries reply (·.currentTerm) fun _ _ _ => rfl

@[simp] theorem replicateReply_votedFor :
    (replicateReply node peer nextIndex numEntries reply).1.votedFor = node.votedFor :=
  replicateReply_frame node peer nextIndex numEntries reply (·.votedFor) fun _ _ _ => rfl

@[simp] theorem replicateReply_log :
    (replicateReply node peer nextIndex numEntries reply).1.log = node.log :=
  replicateReply_frame node peer nextIndex numEntries reply (·.log) fun _ _ _ => rfl

end Reply

/-! ### The cases of the two handlers -/

section Handlers

variable (node : RaftNode ν Cmd)

@[simp] theorem adoptTerm_currentTerm (term : ℕ) :
    (adoptTerm node term).currentTerm = max node.currentTerm term := by
  unfold adoptTerm
  split
  · next h => exact (max_eq_right h.le).symm
  · next h => exact (max_eq_left (not_lt.1 h)).symm

@[simp] theorem adoptTerm_log (term : ℕ) : (adoptTerm node term).log = node.log := by
  unfold adoptTerm
  split <;> rfl

theorem adoptTerm_of_lt {term : ℕ} (h : node.currentTerm < term) :
    adoptTerm node term =
      { node with currentTerm := term, votedFor := none, state := .follower } := by
  rw [adoptTerm, if_pos h]

theorem adoptTerm_of_le {term : ℕ} (h : term ≤ node.currentTerm) : adoptTerm node term = node := by
  rw [adoptTerm, if_neg (not_lt.2 h)]

theorem adoptTerm_votedFor (term : ℕ) :
    (adoptTerm node term).votedFor = if node.currentTerm < term then none else node.votedFor := by
  unfold adoptTerm
  split <;> rfl

theorem adoptTerm_state (term : ℕ) :
    (adoptTerm node term).state = if node.currentTerm < term then .follower else node.state := by
  unfold adoptTerm
  split <;> rfl

/-- After a vote request the term is the higher of the two. -/
@[simp] theorem handleRequestVote_currentTerm [DecidableEq ν] (data : RequestVote ν) :
    (handleRequestVote node data).1.currentTerm = max node.currentTerm data.term := by
  simp only [handleRequestVote]
  split_ifs with hterm
  · exact (max_eq_left hterm.le).symm
  · exact adoptTerm_currentTerm node data.term
  · exact adoptTerm_currentTerm node data.term

@[simp] theorem handleRequestVote_log [DecidableEq ν] (data : RequestVote ν) :
    (handleRequestVote node data).1.log = node.log := by
  simp only [handleRequestVote]
  split_ifs <;> simp

/-- **What granting a vote means**: the request is not stale, no other candidate has the vote of
this term, the candidate's log is up to date, and the vote is recorded. -/
theorem handleRequestVote_granted [DecidableEq ν] {data : RequestVote ν}
    (h : (handleRequestVote node data).2.voteGranted = true) :
    node.currentTerm ≤ data.term ∧
      ((adoptTerm node data.term).votedFor = none ∨
        (adoptTerm node data.term).votedFor = some data.candidateId) ∧
      isLogUpToDate node data.lastLogIndex data.lastLogTerm = true ∧
      (handleRequestVote node data).1 =
        { adoptTerm node data.term with votedFor := some data.candidateId } := by
  have huptodate : isLogUpToDate (adoptTerm node data.term) data.lastLogIndex data.lastLogTerm =
      isLogUpToDate node data.lastLogIndex data.lastLogTerm := by
    simp only [isLogUpToDate, adoptTerm_log]
  simp only [handleRequestVote] at h ⊢
  split_ifs at h ⊢ with hterm hcan
  exact ⟨not_lt.1 hterm, hcan.1, huptodate ▸ hcan.2, rfl⟩

/-- Refusing a vote leaves the node in the term of the request, with the vote it had there. -/
theorem handleRequestVote_refused [DecidableEq ν] {data : RequestVote ν}
    (h : (handleRequestVote node data).2.voteGranted = false) :
    (handleRequestVote node data).1 = adoptTerm node data.term := by
  simp only [handleRequestVote] at h ⊢
  split_ifs at h ⊢ with hterm hcan
  · exact (adoptTerm_of_le node hterm.le).symm
  · rfl

/-- A vote request of a later term makes the node a follower, any other one keeps its state. -/
theorem handleRequestVote_state [DecidableEq ν] (data : RequestVote ν) :
    (handleRequestVote node data).1.state =
      if node.currentTerm < data.term then .follower else node.state := by
  rw [← adoptTerm_state]
  cases hg : (handleRequestVote node data).2.voteGranted with
  | false => rw [handleRequestVote_refused node hg]
  | true =>
      obtain ⟨-, -, -, hnode⟩ := handleRequestVote_granted node hg
      rw [hnode]

/-- A vote request only concerns the term, the vote and the state of the node. -/
theorem handleRequestVote_frame [DecidableEq ν] {κ : Type*} (f : RaftNode ν Cmd → κ)
    (hf : ∀ node currentTerm votedFor state, f { node with currentTerm, votedFor, state } = f node)
    (data : RequestVote ν) : f (handleRequestVote node data).1 = f node := by
  have hadopt : f (adoptTerm node data.term) = f node := by
    unfold adoptTerm
    split
    · exact hf node _ _ _
    · rfl
  cases hg : (handleRequestVote node data).2.voteGranted with
  | false => rw [handleRequestVote_refused node hg, hadopt]
  | true =>
      obtain ⟨-, -, -, hnode⟩ := handleRequestVote_granted node hg
      rw [hnode, ← hadopt]
      exact hf (adoptTerm node data.term) _ _ _

@[simp] theorem acceptLeader_currentTerm (term : ℕ) (leaderId : ν) :
    (acceptLeader node term leaderId).currentTerm = max node.currentTerm term := by
  simp only [acceptLeader]
  split_ifs <;> omega

@[simp] theorem acceptLeader_state (term : ℕ) (leaderId : ν) :
    (acceptLeader node term leaderId).state = .follower := rfl

@[simp] theorem acceptLeader_log (term : ℕ) (leaderId : ν) :
    (acceptLeader node term leaderId).log = node.log := rfl

theorem acceptLeader_votedFor_of_le {term : ℕ} (h : term ≤ node.currentTerm) (leaderId : ν) :
    (acceptLeader node term leaderId).votedFor = node.votedFor := by
  simp only [acceptLeader, if_neg (not_lt.2 h)]

variable {data : AppendEntries ν Cmd}

/-- A stale AppendEntries call is refused without any effect. -/
theorem handleAppendEntries_of_stale (h : data.term < node.currentTerm) :
    handleAppendEntries node data = (node, some ⟨node.currentTerm, false⟩) := by
  rw [handleAppendEntries, if_pos h]

/-- A call whose previous entry is not in the log only makes the node follow the sender. -/
theorem handleAppendEntries_of_mismatch (h : node.currentTerm ≤ data.term)
    (hprev : prevMatches node.log data.prevLogIndex data.prevLogTerm = false) :
    handleAppendEntries node data =
      (acceptLeader node data.term data.leaderId, some ⟨data.term, false⟩) := by
  rw [handleAppendEntries, if_neg (not_lt.2 h)]
  simp [hprev, max_eq_right h]

/-- An accepted call stores the entries, raises `commit_index` and applies what is committed. -/
theorem handleAppendEntries_of_match (h : node.currentTerm ≤ data.term)
    (hprev : prevMatches node.log data.prevLogIndex data.prevLogTerm = true) :
    (handleAppendEntries node data).1 =
      (applyCommitted (storeEntries (acceptLeader node data.term data.leaderId) data)).1 := by
  rw [handleAppendEntries, if_neg (not_lt.2 h)]
  simp [hprev]

/-- After an AppendEntries call the term is the higher of the two. -/
@[simp] theorem handleAppendEntries_currentTerm (data : AppendEntries ν Cmd) :
    (handleAppendEntries node data).1.currentTerm = max node.currentTerm data.term := by
  rcases lt_or_ge data.term node.currentTerm with hterm | hterm
  · rw [handleAppendEntries_of_stale node hterm]
    exact (max_eq_left hterm.le).symm
  · cases hprev : prevMatches node.log data.prevLogIndex data.prevLogTerm with
    | false => rw [handleAppendEntries_of_mismatch node hterm hprev, acceptLeader_currentTerm]
    | true =>
        rw [handleAppendEntries_of_match node hterm hprev, applyCommitted_currentTerm]
        exact acceptLeader_currentTerm node _ data.leaderId

/-- A call that is not stale ends the leadership or candidacy of the node that handles it. -/
theorem handleAppendEntries_state (h : node.currentTerm ≤ data.term) :
    (handleAppendEntries node data).1.state = .follower := by
  cases hprev : prevMatches node.log data.prevLogIndex data.prevLogTerm with
  | false => rw [handleAppendEntries_of_mismatch node h hprev, acceptLeader_state]
  | true =>
      rw [handleAppendEntries_of_match node h hprev, applyCommitted_state]
      rfl

/-- An AppendEntries call of the current term does not touch the vote. -/
theorem handleAppendEntries_votedFor (h : data.term ≤ node.currentTerm) :
    (handleAppendEntries node data).1.votedFor = node.votedFor := by
  rcases lt_or_eq_of_le h with hterm | hterm
  · rw [handleAppendEntries_of_stale node hterm]
  · cases hprev : prevMatches node.log data.prevLogIndex data.prevLogTerm with
    | false =>
        rw [handleAppendEntries_of_mismatch node hterm.ge hprev]
        exact acceptLeader_votedFor_of_le node h data.leaderId
    | true =>
        rw [handleAppendEntries_of_match node hterm.ge hprev, applyCommitted_votedFor]
        exact acceptLeader_votedFor_of_le node h data.leaderId

end Handlers

end Raft
