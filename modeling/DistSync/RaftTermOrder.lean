/-
**Logs are in term order.**

`_is_log_up_to_date` takes the term of the last entry for the greatest in the log, and
`_advance_commit_index` looks at one index only to see whether a lower one may be committed.  Both
rely on logs in which terms do not go down, and nothing in the code checks that they are.

It holds in every run, whoever sends.  A leader appends in its own term, which no entry of its log
exceeds.  A payload is a piece of a log, and it may be sent late, by a node that was deposed and
whose log was cut off in front of `next_index`; the entries it has are behind the previous one all
the same.  The entry loop of `handle_append_entries` keeps, cuts off or appends one entry at a
time, and what is in front of the entry stays a log that the entry may follow
(`Raft.inTermOrder_appendLoop`).  No two logs have to be compared for this.

Main definitions:

* `Raft.LogInOrder`, `Raft.PayloadInOrder` — the order of one log, and of one payload;
* `Raft.TermOrdered` — logs and payloads are in term order.

Main results:

* `Raft.inTermOrder_appendLoop` — **the entry loop keeps the order**;
* `Raft.logsInTermOrder` — **logs and payloads are in term order in every run**.
-/

import DistSync.RaftCounting
import DistSync.RaftMatchIndex
import DistSync.RaftSafety

set_option relaxedAutoImplicit false
set_option autoImplicit false

namespace Raft

open Runs TermLog

variable {ν Cmd : Type}

/-! ### The entry loop -/

/-- **The entry loop keeps the order**: `mid` bounds what is in front of the entries, and the
entries go on from there. -/
theorem inTermOrder_appendLoop {lo hi : ℕ} (entries : List (LogEntry Cmd)) :
    ∀ (log : List (LogEntry Cmd)) (index mid : ℕ), index ≤ log.length → lo ≤ mid →
      InTermOrder LogEntry.term lo hi log → InTermOrder LogEntry.term lo mid (log.take index) →
      InTermOrder LogEntry.term mid hi entries →
      InTermOrder LogEntry.term lo hi (appendLoop log index entries) := by
  -- induction on the entries; the term of each is the `mid` of the next
  induction entries with
  | nil => exact fun _ _ _ _ _ hlog _ _ => hlog
  | cons entry entries ih =>
      intro log index mid hindex hlo hlog hfront hentries
      obtain ⟨hmid, hhi, hrest⟩ := hentries.of_cons
      have hlo' : lo ≤ entry.term := hlo.trans hmid
      -- once the log ends with the entry, the rest follows it
      have hended : InTermOrder LogEntry.term lo hi
          (appendLoop (log.take index ++ [entry]) (index + 1) entries) := by
        have hsnoc := hfront.snoc hlo hmid
        have hlen : (log.take index ++ [entry]).length = index + 1 := by
          rw [List.length_append, List.length_take, List.length_singleton]
          omega
        exact ih _ _ entry.term hlen.ge hlo' (hsnoc.mono le_rfl hhi)
          (hsnoc.sublist (List.take_sublist ..)) hrest
      rcases lt_or_eq_of_le hindex with hlt | rfl
      · obtain ⟨old, hold⟩ : ∃ old, log[index]? = some old :=
          ⟨log[index], List.getElem?_eq_getElem hlt⟩
        by_cases hterm : old.term = entry.term
        · rw [appendLoop_keep hold hterm]
          exact ih log _ entry.term hlt hlo' hlog (hterm ▸ hlog.take hold) hrest
        · rw [appendLoop_conflict hold hterm]
          exact hended
      · rw [appendLoop_append]
        rwa [List.take_length] at hended

/-! ### Logs and payloads -/

/-- The log of a node is in term order, up to its current term. -/
def LogInOrder (node : RaftNode ν Cmd) : Prop :=
  InTermOrder LogEntry.term 1 node.currentTerm node.log

/-- The entries of a payload are in term order, from the term in front of them to its own. -/
def PayloadInOrder (payload : AppendEntries ν Cmd) : Prop :=
  InTermOrder LogEntry.term (max 1 payload.prevLogTerm) payload.term payload.entries

variable {node node' : RaftNode ν Cmd}

theorem LogInOrder.of_log_eq (h : LogInOrder node) (hlog : node'.log = node.log)
    (hterm : node.currentTerm ≤ node'.currentTerm) : LogInOrder node' := by
  rw [LogInOrder, hlog]
  exact h.mono le_rfl hterm

theorem LogInOrder.appendEntry (h : LogInOrder node) (hpos : 0 < node.currentTerm)
    (command : Cmd) : LogInOrder (Raft.appendEntry node command).1 :=
  h.snoc (e := ⟨node.currentTerm, command⟩) hpos le_rfl

/-- The check of the previous entry finds the log in order up to the term it asks for. -/
theorem LogInOrder.of_prevMatches (h : LogInOrder node) {prevLogIndex : ℤ} {prevLogTerm : ℕ}
    (hprev : prevMatches node.log prevLogIndex prevLogTerm = true) :
    (prevLogIndex + 1).toNat ≤ node.log.length ∧
      InTermOrder LogEntry.term 1 (max 1 prevLogTerm)
        (node.log.take (prevLogIndex + 1).toNat) := by
  rw [prevMatches] at hprev
  split at hprev
  · next hnonneg =>
      split at hprev
      · cases hprev
      · next prev hget =>
          obtain rfl := of_decide_eq_true hprev
          have hsucc : (prevLogIndex + 1).toNat = prevLogIndex.toNat + 1 := by omega
          rw [hsucc]
          exact ⟨(List.getElem?_eq_some_iff.1 hget).1,
            (h.take hget).mono le_rfl (le_max_right ..)⟩
  · next hneg =>
      have hzero : (prevLogIndex + 1).toNat = 0 := by omega
      rw [hzero, List.take_zero]
      exact ⟨Nat.zero_le _, .nil⟩

/-- **`handle_append_entries` keeps the order**, whoever has sent the payload. -/
theorem LogInOrder.handleAppendEntries (h : LogInOrder node) {data : AppendEntries ν Cmd}
    (hdata : PayloadInOrder data) : LogInOrder (Raft.handleAppendEntries node data).1 := by
  rcases lt_or_ge data.term node.currentTerm with hterm | hterm
  · rwa [handleAppendEntries_of_stale node hterm]
  · cases hprev : prevMatches node.log data.prevLogIndex data.prevLogTerm with
    | false =>
        rw [handleAppendEntries_of_mismatch node hterm hprev]
        exact h.of_log_eq rfl (by simp)
    | true =>
        obtain ⟨hindex, hfront⟩ := h.of_prevMatches hprev
        rw [LogInOrder, handleAppendEntries_currentTerm, max_eq_right hterm,
          handleAppendEntries_of_match node hterm hprev, applyCommitted_log]
        exact inTermOrder_appendLoop data.entries node.log _ _ hindex (le_max_left ..)
          (h.mono le_rfl hterm) hfront hdata

/-- **What `_replicate_to_peer` sends is in order**, also when the log ends before `next_index`. -/
theorem LogInOrder.replicateToPeer (h : LogInOrder node) (self peer : ν) :
    PayloadInOrder (Raft.replicateToPeer self node peer) := by
  have hsnap := snapshot_replicateToPeer self node peer
  have hrest : InTermOrder LogEntry.term 1 node.currentTerm (node.log.drop (node.nextIndex peer)) :=
    h.sublist (List.drop_sublist ..)
  rw [PayloadInOrder, hsnap.entries]
  refine ⟨hrest.sorted, fun e he => max_le (hrest.ge e he) ?_, hrest.le⟩
  cases hnext : node.nextIndex peer with
  | zero => simp [Raft.replicateToPeer, hnext]
  | succ prev =>
      rw [hnext] at he
      have hlt : prev < node.log.length := by
        have := List.length_pos_of_mem he
        rw [List.length_drop] at this
        omega
      have hget : node.log[prev]? = some node.log[prev] := List.getElem?_eq_getElem hlt
      rw [hsnap.prevLogTerm prev _ hnext hget]
      exact (h.drop hget).ge e (List.drop_subset_drop_left _ (Nat.le_succ prev) he)

/-! ### Steps of the cluster -/

section Cluster

variable [DecidableEq ν] {M : Membership ν} {s s' : Cluster ν Cmd}
  {callback : ν → ApplyCallback Cmd}

/-- **Logs and payloads are in term order.** -/
structure TermOrdered (s : Cluster ν Cmd) : Prop where
  log : ∀ n, LogInOrder (s.nodes n).raft
  call : ∀ c ∈ s.appendCalls, PayloadInOrder c.payload

omit [DecidableEq ν] in
theorem termOrdered_initial : TermOrdered (initial callback) where
  log := fun _ => .nil
  call := fun _ hc => nomatch hc

theorem TermOrdered.step {a : Action ν Cmd} (hI : TermOrdered s) (hpos : TermsPositive s)
    (h : Moves M s a s') : TermOrdered s' where
  log := by
    have key : ∀ {m : ν} {p : Process ν Cmd}, LogInOrder p.raft →
        ∀ n, LogInOrder ((s.set m p).nodes n).raft :=
      Cluster.set_forall (P := fun _ p => LogInOrder p.raft) hI.log
    cases h with
    | electionTimeout => exact key ((hI.log _).of_log_eq rfl (Nat.le_succ _))
    | @requestVote call voter payload =>
        exact key ((hI.log voter).of_log_eq (handleRequestVote_log ..) (by simp))
    | electionWon => exact key ((hI.log _).of_log_eq rfl le_rfl)
    | electionLost => exact key (hI.log _)
    | @appendEntry n command hleader =>
        exact key ((hI.log n).appendEntry (hpos.node n (.inl hleader)) command)
    | heartbeat => exact key (hI.log _)
    | heartbeatExit => exact key (hI.log _)
    | replicateStart => exact key (hI.log _)
    | appendEntries hcall =>
        exact key ((hI.log _).handleAppendEntries (hI.call _ (List.mem_of_getElem? hcall)))
    | @replicateEnd n =>
        exact key ((hI.log n).of_log_eq (replicateReply_log ..) (replicateReply_currentTerm ..).ge)
    | @appendEnd n =>
        exact key ((hI.log n).of_log_eq (concludeAppend_log ..) (concludeAppend_currentTerm ..).ge)
  call := by
    intro c hc
    rcases h.mem_appendCalls c hc with hold | ⟨n, peer, rfl⟩
    · exact hI.call c hold
    · exact (hI.log n).replicateToPeer n peer

theorem termOrdered_run {ok : Cluster ν Cmd → Action ν Cmd → Prop}
    (h : Run (step M) ok (initial callback) s) : TermOrdered s :=
  (h.invariant (I := fun s => TermOrdered s ∧ TermsPositive s)
    (fun _ _ _ hI _ hstep => ⟨hI.1.step hI.2 (moves_of_step hstep),
      hI.2.step (moves_of_step hstep)⟩) ⟨termOrdered_initial, termsPositive_initial⟩).1

/-- **Logs and payloads are in term order in every run**: the terms of a log go from 1 to the
current term of its node, and those of a payload from `prev_log_term` to the term of the payload. -/
theorem logsInTermOrder (h : Run (Raft.step M) anyAction (initial callback) s) :
    (∀ n, InTermOrder LogEntry.term 1 (s.nodes n).raft.currentTerm (s.nodes n).raft.log) ∧
    ∀ c ∈ s.appendCalls, InTermOrder LogEntry.term c.payload.prevLogTerm c.payload.term
      c.payload.entries := by
  have hI := termOrdered_run h
  exact ⟨hI.log, fun c hc => (hI.call c hc).mono (le_max_right ..) le_rfl⟩

end Cluster

/-! ### A deposed leader that still sends -/

/-- Node 0, which does not know of term 2 yet, appends behind the entry that node 1 has too.  Node 1
appends in term 2 and overwrites it, and then a task of node 0 sends the log it was given. -/
def overwrittenSender : List (Action (Fin 3) ℕ) :=
  laterLeader ++ [.appendEntry 0 9, .appendEntry 1 8, .replicateStart 1 0, .appendEntries 2,
    .replicateStart 0 3, .appendEntries 3]

/-- What it sends is in order, and so is the log of node 2 that takes it. -/
theorem logsInTermOrder_overwrittenSender :
    ∃ s : Cluster (Fin 3) ℕ, Run (Raft.step trio) anyAction (initial returning) s ∧
      (s.nodes 0).raft.state = .follower ∧ (s.nodes 2).raft.log = [⟨1, 7⟩, ⟨2, 8⟩] ∧
      InTermOrder LogEntry.term 1 2 (s.nodes 2).raft.log ∧
      ∃ c ∈ s.appendCalls, c.payload.leaderId = 0 ∧ c.payload.term = 2 ∧
        c.payload.entries = [⟨1, 7⟩, ⟨2, 8⟩] ∧
        InTermOrder LogEntry.term c.payload.prevLogTerm 2 c.payload.entries := by
  obtain ⟨s, hs, hstate, hlog, hterm, c, hc, hid, hpayload, hentries⟩ :=
    Run.exists_of_exec (Raft.step trio) anyAction (initial returning) overwrittenSender
      (fun s => (s.nodes 0).raft.state = .follower ∧
        (s.nodes 2).raft.log = [⟨1, 7⟩, ⟨2, 8⟩] ∧ (s.nodes 2).raft.currentTerm = 2 ∧
        ∃ c ∈ s.appendCalls, c.payload.leaderId = 0 ∧ c.payload.term = 2 ∧
          c.payload.entries = [⟨1, 7⟩, ⟨2, 8⟩]) (by decide)
  obtain ⟨hlogs, hcalls⟩ := logsInTermOrder hs
  exact ⟨s, hs, hstate, hlog, hterm ▸ hlogs 2, c, hc, hid, hpayload, hentries,
    hpayload ▸ hcalls c hc⟩

end Raft
