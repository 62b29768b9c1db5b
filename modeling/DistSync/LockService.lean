/-
**One writer in the whole cluster.**

`LockManager.mutualExclusion` is about one lock table, and every replica has its own.  A client may
ask any of them, at any time: node `n` may say that `alice` has the lock while node `m`, which has
applied fewer commands or more, says that `bob` has it.  This module says what such a disagreement
means.  A client that holds a lock is only deprived of it by a release of its own, whatever else the
log contains; and since the replicas apply prefixes of one sequence, of two replicas that disagree
about a writer the one that is ahead has applied the release of the client that the other one still
names.  For the same reason a client that was granted a lock by one leader has it under the next.

Main results:

* `LockManager.held_until_release` — a client keeps what it holds until a release of its own;
* `Raft.aligned` — two nodes have applied prefixes of one sequence;
* `Raft.oneWriter` — **two replicas only disagree about a writer over a release of it**;
* `Raft.holdSurvives` — **what a client holds at one node it holds at all that have applied as
  much**, also after a change of leader.
-/

import DistSync.LockHolders
import DistSync.RaftSafety

set_option relaxedAutoImplicit false
set_option autoImplicit false

/-! ### One lock table -/

namespace LockManager

open LockStateMachine

variable {state : LockState} {lock client : String} {mode : Json}

/-- Readers stay when readers are let in. -/
theorem holdAll_keeps_reader {granted : List LockRequest}
    (hgranted : ∀ request ∈ granted, request.mode = .shared)
    (h : state.holders.get? client = some .shared) :
    (state.holdAll granted).holders.get? client = some .shared := by
  induction granted generalizing state with
  | nil => exact h
  | cons request granted ih =>
      have hhold : (state.hold request).1.holders.get? client = some .shared := by
        rw [hold_holders, Dict.get?_set]
        split
        · rw [hgranted request List.mem_cons_self]
        · exact h
      cases hcompleted : (state.hold request).2 with
      | false => rwa [LockState.holdAll_of_raise hcompleted]
      | true =>
          rw [LockState.holdAll_of_hold hcompleted]
          exact ih (fun r hr => hgranted r (List.mem_cons_of_mem _ hr)) hhold

/-- `_grant_waiting` deprives nobody. -/
theorem regrant_keeps (h : state.holders.get? client = some mode) :
    state.regrant.holders.get? client = some mode := by
  unfold LockState.regrant
  rcases takeGranted_cases state with ⟨first, -, hfree, -⟩ | ⟨hshared, hgranted, -⟩ | ⟨htake, -⟩
  · -- a lock that goes to a writer had no holders
    rw [hfree client] at h
    cases h
  · have hmode := hshared client mode h
    subst hmode
    exact holdAll_keeps_reader hgranted h
  · rw [htake]
    exact h

/-- **Only its own release takes a lock from a client.** -/
theorem held_step {sm : LockStateMachine} {command : Command}
    (hmove : LockMoves sm lock command state) (hexcl : Exclusion (sm.lockState lock).holders)
    (hrelease : command ≠ .release lock client)
    (h : (sm.lockState lock).holders.get? client = some mode) :
    state.holders.get? client = some mode := by
  cases hmove with
  | same => exact h
  | grant request hname hnew hgrant =>
      obtain ⟨held, hheld⟩ := hexcl
      rw [hold_holders, Dict.get?_set]
      rcases canGrant_cases hgrant with ⟨-, hfree⟩ | ⟨hmode, hshared, -⟩
      · rw [hfree client] at h
        cases h
      · split
        · next heq =>
            -- a reader that asks again is entered again
            subst heq
            rcases hheld.mode h with rfl | rfl
            · rw [hmode]
            · exact absurd h (hshared _)
        · exact h
  | wait request hname hnew hgrant => exact h
  | release hclient =>
      refine regrant_keeps ?_
      rw [LockState.leave, Dict.get?_erase, if_neg ?_]
      · exact h
      · rintro rfl
        exact hrelease rfl
  | abort hfound => exact h

/-- **A client keeps what it holds until a release of its own.** -/
theorem held_until_release {commands rest : List Command}
    (h : ((applyAll commands).lockState lock).holders.get? client = some mode)
    (hrelease : Command.release lock client ∉ rest) :
    ((applyAll (commands ++ rest)).lockState lock).holders.get? client = some mode := by
  induction rest using List.reverseRecOn with
  | nil => rwa [List.append_nil]
  | append_singleton rest command ih =>
      rw [List.mem_append, List.mem_singleton, not_or] at hrelease
      rw [← List.append_assoc, applyAll_snoc]
      exact held_step (apply_lockMoves _ lock command) (exclusion_applyAll _ lock)
        (Ne.symm hrelease.2) (ih hrelease.1)

/-- Of two states of one table that name different clients, one of them a writer, the later one
comes after a release of the client that the earlier one names. -/
theorem release_of_disagree {commands rest : List Command} {other : String} {mode' : Json}
    (hne : client ≠ other) (hwriter : mode = .exclusive ∨ mode' = .exclusive)
    (h : ((applyAll commands).lockState lock).holders.get? client = some mode)
    (h' : ((applyAll (commands ++ rest)).lockState lock).holders.get? other = some mode') :
    Command.release lock client ∈ rest := by
  by_contra hrelease
  obtain ⟨held, hheld⟩ := exclusion_applyAll (commands ++ rest) lock
  have hstill := held_until_release h hrelease
  rcases hwriter with rfl | rfl
  · exact hne (hheld.only_holder hstill h').symm
  · exact hne (hheld.only_holder h' hstill)

end LockManager

/-! ### All the tables of a cluster -/

namespace Raft

open Runs LockManager

variable {ν Cmd : Type} {decode : Cmd → LockManager.Command}

/-- The commands behind `last_applied` are the ones a longer table has applied besides. -/
theorem mem_rest_of_applied {node node' : RaftNode ν Cmd} {rest : List (ℤ × Cmd)}
    (h : AppliedInv node) (h' : AppliedInv node') (heq : node'.applied = node.applied ++ rest)
    {call : ℤ × Cmd} (hcall : call ∈ rest) : node.lastApplied < call.1 := by
  obtain ⟨k, hk⟩ := List.mem_iff_getElem?.1 hcall
  have hat : node'.applied[node.applied.length + k]? = some call := by
    rw [heq, List.getElem?_append_right (Nat.le_add_right _ _), Nat.add_sub_cancel_left, hk]
  rw [h'.applied, enumerate, List.getElem?_mapIdx, Option.map_eq_some_iff] at hat
  obtain ⟨entry, -, rfl⟩ := hat
  have hlen := h.length_applied
  have hge := h.ge
  simp only
  omega

/-- The table of a node that has applied more. -/
theorem lockTable_of_append {node node' : RaftNode ν Cmd} {rest : List (ℤ × Cmd)}
    (heq : node'.applied = node.applied ++ rest) :
    lockTable decode node' = applyAll
      ((node.applied.map fun call => decode call.2) ++ rest.map fun call => decode call.2) := by
  rw [lockTable, heq, List.map_append]

/-- Of two nodes that name different clients, one of them a writer, the one that is ahead has
applied a release of the client that the other one names. -/
theorem release_of_ahead {node node' : RaftNode ν Cmd} {lock c d : String} {mode mode' : Json}
    (h : AppliedInv node) (h' : AppliedInv node') (hahead : node.applied <+: node'.applied)
    (hne : c ≠ d) (hwriter : mode = .exclusive ∨ mode' = .exclusive)
    (hc : ((lockTable decode node).lockState lock).holders.get? c = some mode)
    (hd : ((lockTable decode node').lockState lock).holders.get? d = some mode') :
    ∃ call ∈ node'.applied, node.lastApplied < call.1 ∧ decode call.2 = .release lock c := by
  obtain ⟨rest, heq⟩ := hahead
  rw [lockTable_of_append heq.symm] at hd
  obtain ⟨call, hcall, hdecode⟩ := List.mem_map.1 (release_of_disagree hne hwriter hc hd)
  refine ⟨call, ?_, mem_rest_of_applied h h' heq.symm hcall, hdecode⟩
  rw [← heq]
  exact List.mem_append_right _ hcall

/-- **Two nodes have applied prefixes of one sequence**; `last_applied` says which one is longer. -/
structure Aligned (node node' : RaftNode ν Cmd) : Prop where
  left : AppliedInv node
  right : AppliedInv node'
  ahead : node.lastApplied ≤ node'.lastApplied → node.applied <+: node'.applied
  behind : node'.lastApplied ≤ node.lastApplied → node'.applied <+: node.applied

variable [DecidableEq ν] {M : Membership ν} {s s' : Cluster ν Cmd}
  {callback : ν → ApplyCallback Cmd}

theorem aligned (h : Run (Raft.step M) (InTerm M) (initial callback) s)
    (h' : Run (Raft.step M) (InTerm M) s s') (n m : ν) :
    Aligned (s.nodes n).raft (s'.nodes m).raft := by
  obtain ⟨t, -, hT⟩ := exists_history h
  obtain ⟨t', hI', hT'⟩ := exists_history (h.trans h')
  obtain ⟨log, hn, hm⟩ := hT'.applied_comparable hI' n m
  have hinv := (hT.commit n).applied
  have hinv' := (hT'.commit m).applied
  have hn' := (applied_mono h' n).trans hn
  refine ⟨hinv, hinv', fun hle => List.prefix_of_prefix_length_le hn' hm ?_,
    fun hle => List.prefix_of_prefix_length_le hm hn' ?_⟩ <;>
  · rw [hinv.length_applied, hinv'.length_applied]
    omega

/-- **Two replicas only disagree about a writer over a release of it.**  When coroutines go on in
the term in which they were suspended, a client that holds a lock for itself in the table of node
`n`, and another client that holds it in the table of node `m` then or later, are separated by a
release: node `m` has applied a release of the first client that `n` had not applied, or `n` had
applied one of the second client that `m` has not applied. -/
theorem oneWriter (h : Run (Raft.step M) (InTerm M) (initial callback) s)
    (h' : Run (Raft.step M) (InTerm M) s s') {n m : ν} {lock c d : String} {mode : Json}
    (hne : c ≠ d)
    (hc : ((lockTable decode (s.nodes n).raft).lockState lock).holders.get? c = some .exclusive)
    (hd : ((lockTable decode (s'.nodes m).raft).lockState lock).holders.get? d = some mode) :
    (∃ call ∈ (s'.nodes m).raft.applied, (s.nodes n).raft.lastApplied < call.1 ∧
      decode call.2 = .release lock c) ∨
    (∃ call ∈ (s.nodes n).raft.applied, (s'.nodes m).raft.lastApplied < call.1 ∧
      decode call.2 = .release lock d) := by
  have haligned := aligned h h' n m
  -- the node that is ahead knows why
  rcases le_total (s.nodes n).raft.lastApplied (s'.nodes m).raft.lastApplied with hle | hle
  · exact .inl (release_of_ahead haligned.left haligned.right (haligned.ahead hle) hne (.inl rfl)
      hc hd)
  · exact .inr (release_of_ahead haligned.right haligned.left (haligned.behind hle) hne.symm
      (.inr rfl) hd hc)

/-- **A hold survives changes of leader.**  When coroutines go on in the term in which they were
suspended, what a client holds in the table of a node it holds, in the same mode, in the table of
every node that has applied as much then or later, unless that node has applied a release of it
besides. -/
theorem holdSurvives (h : Run (Raft.step M) (InTerm M) (initial callback) s)
    (h' : Run (Raft.step M) (InTerm M) s s') {n m : ν} {lock c : String} {mode : Json}
    (hc : ((lockTable decode (s.nodes n).raft).lockState lock).holders.get? c = some mode)
    (hlater : (s.nodes n).raft.lastApplied ≤ (s'.nodes m).raft.lastApplied) :
    ((lockTable decode (s'.nodes m).raft).lockState lock).holders.get? c = some mode ∨
    ∃ call ∈ (s'.nodes m).raft.applied, (s.nodes n).raft.lastApplied < call.1 ∧
      decode call.2 = .release lock c := by
  have haligned := aligned h h' n m
  obtain ⟨rest, heq⟩ := haligned.ahead hlater
  by_cases hrelease : LockManager.Command.release lock c ∈ rest.map fun call => decode call.2
  · obtain ⟨call, hcall, hdecode⟩ := List.mem_map.1 hrelease
    refine .inr ⟨call, ?_,
      mem_rest_of_applied haligned.left haligned.right heq.symm hcall, hdecode⟩
    rw [← heq]
    exact List.mem_append_right _ hcall
  · left
    rw [lockTable_of_append heq.symm]
    exact held_until_release hc hrelease

/-- Node 0 leads and commits three commands; node 1 only learns that the first one is committed. -/
def tellsOneOfThree : List (Action (Fin 3) ℕ) :=
  [.electionTimeout 0, .requestVote 0 1, .electionResult 0 [(1, ⟨1, true⟩)], .appendEntry 0 0,
    .replicateStart 0 0, .appendEntries 0, .replicateEnd 0 0 (some ⟨1, true⟩), .appendEnd 0 0,
    .heartbeat 0, .replicateStart 0 0, .appendEntries 1, .appendEntry 0 1, .replicateStart 0 3,
    .appendEntries 2, .replicateEnd 0 3 (some ⟨1, true⟩), .appendEnd 0 1, .appendEntry 0 2,
    .replicateStart 0 3, .appendEntries 3, .replicateEnd 0 3 (some ⟨1, true⟩), .appendEnd 0 2]

/-- The lock goes from one writer to another. -/
def handOver : ℕ → LockManager.Command
  | 0 => .acquire "r1" "db" "alice" .exclusive .null 0
  | 1 => .release "db" "alice"
  | _ => .acquire "r2" "db" "bob" .exclusive .null 1

/-- Node 1 still names the first writer, and node 0 has applied its release. -/
theorem oneWriter_handedOver :
    ∃ s : Cluster (Fin 3) ℕ, Run (Raft.step trio) (InTerm trio) (initial returning) s ∧
      ((lockTable handOver (s.nodes 1).raft).lockState "db").holders.get? "alice" =
        some .exclusive ∧
      ((lockTable handOver (s.nodes 0).raft).lockState "db").holders.get? "bob" =
        some .exclusive ∧
      ∃ call ∈ (s.nodes 0).raft.applied, (s.nodes 1).raft.lastApplied < call.1 ∧
        handOver call.2 = .release "db" "alice" := by
  obtain ⟨s, hs, h0, h1, hlast⟩ := Run.exists_of_exec (Raft.step trio) (InTerm trio)
    (initial returning) tellsOneOfThree
    (fun s => (s.nodes 0).raft.applied = [(0, 0), (1, 1), (2, 2)] ∧
      (s.nodes 1).raft.applied = [(0, 0)] ∧ (s.nodes 0).raft.lastApplied = 2) (by decide)
  have halice : ((lockTable handOver (s.nodes 1).raft).lockState "db").holders.get? "alice" =
      some .exclusive := by
    rw [lockTable, h1]
    rfl
  have hbob : ((lockTable handOver (s.nodes 0).raft).lockState "db").holders.get? "bob" =
      some .exclusive := by
    rw [lockTable, h0]
    rfl
  refine ⟨s, hs, halice, hbob, ?_⟩
  rcases oneWriter hs (.refl s) (by decide) halice hbob with hahead | ⟨call, hcall, hlt, -⟩
  · exact hahead
  · -- node 1 is behind
    rw [h1, List.mem_singleton] at hcall
    rw [hcall, hlast] at hlt
    exact absurd hlt (by decide)

/-- Node 0 leads and commits a command. -/
def commitsOne : List (Action (Fin 3) ℕ) :=
  [.electionTimeout 0, .requestVote 0 1, .electionResult 0 [(1, ⟨1, true⟩)], .appendEntry 0 0,
    .replicateStart 0 0, .appendEntries 0, .replicateEnd 0 0 (some ⟨1, true⟩), .appendEnd 0 0]

/-- Node 1, which has not applied it, takes over and commits a command of its own term. -/
def takesOver : List (Action (Fin 3) ℕ) :=
  [.electionTimeout 1, .requestVote 1 2, .electionResult 1 [(2, ⟨2, true⟩)], .appendEntry 1 2,
    .replicateStart 1 0, .appendEntries 1, .replicateEnd 1 0 (some ⟨2, true⟩), .appendEnd 1 0]

/-- The writer of the first leader is the writer of the second one. -/
theorem holdSurvives_takenOver :
    ∃ s s' : Cluster (Fin 3) ℕ, Run (Raft.step trio) (InTerm trio) (initial returning) s ∧
      Run (Raft.step trio) (InTerm trio) s s' ∧
      ((lockTable handOver (s.nodes 0).raft).lockState "db").holders.get? "alice" =
        some .exclusive ∧
      (s'.nodes 1).raft.state = .leader ∧
      ((lockTable handOver (s'.nodes 1).raft).lockState "db").holders.get? "alice" =
        some .exclusive := by
  obtain ⟨s, hs, h0, hlast, hmore⟩ := Run.exists_of_exec (Raft.step trio) (InTerm trio)
    (initial returning) commitsOne (fun s => (s.nodes 0).raft.applied = [(0, 0)] ∧
      (s.nodes 0).raft.lastApplied = 0 ∧
      ((exec (Raft.step trio) (InTerm trio) s takesOver).any fun s' =>
        decide ((s'.nodes 1).raft.state = .leader ∧ (s'.nodes 1).raft.lastApplied = 1 ∧
          (s'.nodes 1).raft.applied = [(0, 0), (1, 2)])) = true) (by decide)
  obtain ⟨s', hexec, hs'⟩ := (Option.any_eq_true _ _).1 hmore
  obtain ⟨hleads, hlast', h1⟩ := of_decide_eq_true hs'
  have hrun := Run.of_exec takesOver hexec
  have halice : ((lockTable handOver (s.nodes 0).raft).lockState "db").holders.get? "alice" =
      some .exclusive := by
    rw [lockTable, h0]
    rfl
  refine ⟨s, s', hs, hrun, halice, hleads, ?_⟩
  rcases holdSurvives hs hrun halice (by rw [hlast, hlast']; decide) with hstill |
    ⟨call, hcall, -, hrelease⟩
  · exact hstill
  · -- nobody has released the lock
    rw [h1] at hcall
    simp only [List.mem_cons, List.not_mem_nil, or_false] at hcall
    rcases hcall with rfl | rfl <;> cases hrelease

end Raft
