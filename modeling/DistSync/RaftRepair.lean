/-
**Repairing the log of a follower.**

A leader sends a peer what its log has from `next_index` on, with the term of the entry in front of
it, and a follower that does not have this entry refuses.  The leader then moves `next_index` back
by one and tries again.  Messages may meanwhile be late, repeated, or overtaken by newer ones.

The sender and the receiver agree on more than the receiver checks: the entries reach to the end of
the sender's log, and there is no term in front of a `next_index` beyond it, so a follower whose
entries have positive terms never accepts such a message.  This is why the cap of `commit_index` by
the length of the follower's log, which is not the last index that the message covers, does no harm
(`Raft.commitIndex_accepted`).

Main definitions:

* `Raft.accepted` — the answer of a follower that stored the entries;
* `Raft.BuiltFrom`, `Raft.handleAll` — messages about a state of a leader's log, and handling them;
* `Raft.repairCall` — one call of `_replicate_to_peer` with its answer.

Main results:

* `Raft.commitIndex_accepted` — **a follower commits what the message covers**;
* `Raft.replication_keeps` — **late and repeated messages do not undo replication**;
* `Raft.repair_terminates` — **the repair ends, with the leader's log on both sides**.
-/

import DistSync.RaftMatchIndex

set_option relaxedAutoImplicit false
set_option autoImplicit false

namespace Raft

open TermLog

variable {ν Cmd : Type}

/-! ### Accepted messages -/

/-- The answer to a message whose entries were stored; there is none when `apply_callback` raises
after that. -/
def accepted (reply : Option AppendReply) : Bool := reply.all (·.success)

/-- A follower accepts what is not stale and continues its log. -/
theorem accepted_iff (node : RaftNode ν Cmd) (payload : AppendEntries ν Cmd) :
    accepted (handleAppendEntries node payload).2 = true ↔ node.currentTerm ≤ payload.term ∧
      prevMatches node.log payload.prevLogIndex payload.prevLogTerm = true := by
  rcases lt_or_ge payload.term node.currentTerm with hterm | hterm
  · rw [handleAppendEntries_of_stale node hterm]
    exact iff_of_false Bool.false_ne_true fun h => absurd h.1 (not_le.2 hterm)
  · cases hprev : prevMatches node.log payload.prevLogIndex payload.prevLogTerm with
    | false =>
        rw [handleAppendEntries_of_mismatch node hterm hprev]
        exact iff_of_false Bool.false_ne_true fun h => Bool.false_ne_true h.2
    | true =>
        refine iff_of_true ?_ ⟨hterm, rfl⟩
        rw [handleAppendEntries, if_neg (not_lt.2 hterm)]
        simp only [acceptLeader_log, hprev, if_true]
        split <;> rfl

/-- The rule for `commit_index`, for a message that is accepted. -/
theorem commitIndex_of_prevMatches {node : RaftNode ν Cmd} {payload : AppendEntries ν Cmd}
    (hterm : node.currentTerm ≤ payload.term)
    (hprev : prevMatches node.log payload.prevLogIndex payload.prevLogTerm = true) :
    (handleAppendEntries node payload).1.commitIndex =
      if node.commitIndex < payload.leaderCommit then
        min payload.leaderCommit (((handleAppendEntries node payload).1.log.length : ℤ) - 1)
      else node.commitIndex := by
  rw [handleAppendEntries_of_match node hterm hprev, applyCommitted_commitIndex,
    applyCommitted_log]
  rfl

/-- The entry in front of an accepted message is in the follower's log, and in the leader's. -/
theorem next_le_of_prevMatches {log M : List (LogEntry Cmd)} {payload : AppendEntries ν Cmd}
    {next : ℕ} (hsnap : Snapshot payload M next) (hlog : ∀ e ∈ log, 0 < e.term)
    (hprev : prevMatches log payload.prevLogIndex payload.prevLogTerm = true) :
    next ≤ log.length ∧ next ≤ M.length := by
  cases next with
  | zero => exact ⟨Nat.zero_le _, Nat.zero_le _⟩
  | succ prev =>
      have hindex : payload.prevLogIndex = (prev : ℤ) := by
        rw [hsnap.prevLogIndex]; omega
      rw [hindex, prevMatches, if_pos (Int.natCast_nonneg prev), Int.toNat_natCast] at hprev
      split at hprev
      · cases hprev
      · next old hold =>
          refine ⟨(List.getElem?_eq_some_iff.1 hold).1, ?_⟩
          by_contra hlt
          -- beyond the leader's log the message says term 0, which no entry has
          have hzero := hsnap.noPrev (not_le.1 hlt)
          have hpos := hlog old (List.mem_of_getElem? hold)
          have hterm := of_decide_eq_true hprev
          omega

/-- The entry loop reaches the index of the last entry. -/
theorem le_length_appendLoop (entries : List (LogEntry Cmd)) :
    ∀ (log : List (LogEntry Cmd)) (index : ℕ), index ≤ log.length →
      index + entries.length ≤ (appendLoop log index entries).length := by
  induction entries with
  | nil => exact fun _ _ hindex => hindex
  | cons entry entries ih =>
      intro log index hindex
      have hlen : (entry :: entries).length = entries.length + 1 := rfl
      rcases lt_or_eq_of_le hindex with hlt | rfl
      · have hold : log[index]? = some log[index] := List.getElem?_eq_getElem hlt
        by_cases hterm : log[index].term = entry.term
        · rw [appendLoop_keep hold hterm]
          have := ih log (index + 1) hlt
          omega
        · rw [appendLoop_conflict hold hterm]
          have := ih (log.take index ++ [entry]) (index + 1) (by
            rw [List.length_append, List.length_take, List.length_singleton]
            omega)
          omega
      · rw [appendLoop_append]
        have := ih (log ++ [entry]) (log.length + 1) (by
          rw [List.length_append, List.length_singleton])
        omega

/-- **A follower commits what the message covers.**  The last index that the message covers is the
end of the leader's log, so the cap by the end of the follower's log is never reached earlier. -/
theorem commitIndex_accepted {self peer : ν} {leader follower : RaftNode ν Cmd}
    (hcommit : leader.commitIndex < leader.log.length)
    (hlog : ∀ e ∈ follower.log, 0 < e.term)
    (haccepted : accepted
      (handleAppendEntries follower (replicateToPeer self leader peer)).2 = true) :
    (handleAppendEntries follower (replicateToPeer self leader peer)).1.commitIndex =
        max follower.commitIndex (min (replicateToPeer self leader peer).leaderCommit
          (replicateToPeer self leader peer).lastIndex) ∧
      ∀ i : ℤ, follower.commitIndex < i →
        i ≤ (handleAppendEntries follower (replicateToPeer self leader peer)).1.commitIndex →
        i ≤ (replicateToPeer self leader peer).lastIndex := by
  have hsnap := snapshot_replicateToPeer self leader peer
  have hleaderCommit : (replicateToPeer self leader peer).leaderCommit = leader.commitIndex := rfl
  generalize replicateToPeer self leader peer = payload at *
  obtain ⟨hterm, hprev⟩ := (accepted_iff follower payload).1 haccepted
  obtain ⟨hnext, hnext'⟩ := next_le_of_prevMatches hsnap hlog hprev
  -- the message reaches to the end of the leader's log
  have hlast : payload.lastIndex = (leader.log.length : ℤ) - 1 := by
    rw [AppendEntries.lastIndex, hsnap.prevLogIndex, hsnap.entries, List.length_drop]
    omega
  have hlen : leader.log.length ≤ (handleAppendEntries follower payload).1.log.length := by
    rw [log_of_prevMatches hsnap hterm hprev]
    have := le_length_appendLoop (leader.log.drop (leader.nextIndex peer)) follower.log _ hnext
    rw [List.length_drop] at this
    omega
  have hkey : (handleAppendEntries follower payload).1.commitIndex =
      max follower.commitIndex (min payload.leaderCommit payload.lastIndex) := by
    rw [commitIndex_of_prevMatches hterm hprev, hlast, hleaderCommit]
    split_ifs <;> omega
  refine ⟨hkey, fun i hi hle => ?_⟩
  omega

/-- A leader of term 2 with two entries, the first of them committed. -/
def seasoned : RaftNode ℕ ℕ :=
  { init fun _ _ => true with
    state := .leader
    currentTerm := 2
    log := [⟨1, 7⟩, ⟨2, 8⟩]
    commitIndex := 0
    nextIndex := fun _ => 3 }

/-- A follower of term 1 that has another second entry. -/
def lagging : RaftNode ℕ ℕ :=
  { init fun _ _ => true with
    currentTerm := 1
    log := [⟨1, 7⟩, ⟨1, 9⟩] }

/-- That follower accepts the second entry and commits the first. -/
theorem commitIndex_accepted_lagging :
    accepted (handleAppendEntries lagging
      (replicateToPeer 0 { seasoned with nextIndex := fun _ => 1 } 1)).2 = true ∧
    (handleAppendEntries lagging
      (replicateToPeer 0 { seasoned with nextIndex := fun _ => 1 } 1)).1.commitIndex = 0 :=
  have haccepted : accepted (handleAppendEntries lagging
      (replicateToPeer 0 { seasoned with nextIndex := fun _ => 1 } 1)).2 = true := by decide
  ⟨haccepted, (commitIndex_accepted (by decide) (by decide) haccepted).1⟩

theorem matching_lagging : Matching LogEntry.term lagging.log seasoned.log := by
  intro i e₁ e₂ hi₁ hi₂ hterm
  match i, hi₁, hi₂ with
  | 0, _, _ => rfl
  | 1, hi₁, hi₂ =>
      cases hi₁
      cases hi₂
      cases hterm
  | i + 2, hi₁, _ => cases hi₁

/-! ### Late and repeated messages -/

/-- A message that `_replicate_to_peer` builds in term `T` when the log of the leader is `L`, at any
`next_index` and `commit_index`. -/
def BuiltFrom (self : ν) (T : ℕ) (L : List (LogEntry Cmd)) (payload : AppendEntries ν Cmd) : Prop :=
  ∃ (leader : RaftNode ν Cmd) (peer : ν), leader.currentTerm = T ∧ leader.log = L ∧
    payload = replicateToPeer self leader peer

/-- The follower after it has handled messages in the order of a list. -/
def handleAll (follower : RaftNode ν Cmd) (payloads : List (AppendEntries ν Cmd)) :
    RaftNode ν Cmd :=
  payloads.foldl (fun node payload => (handleAppendEntries node payload).1) follower

/-- What a follower keeps while it handles messages about the versions of a leader's log: its term
is not above the leader's, its entries have positive terms, and its log matches all versions. -/
structure MatchesVersions (version : ℕ → List (LogEntry Cmd)) (T : ℕ) (node : RaftNode ν Cmd) :
    Prop where
  term : node.currentTerm ≤ T
  pos : ∀ e ∈ node.log, 0 < e.term
  matching : ∀ k, Matching LogEntry.term node.log (version k)

theorem BuiltFrom.snapshot {self : ν} {T : ℕ} {L : List (LogEntry Cmd)}
    {payload : AppendEntries ν Cmd} (h : BuiltFrom self T L payload) :
    payload.term = T ∧ ∃ next, Snapshot payload L next := by
  obtain ⟨leader, peer, rfl, rfl, rfl⟩ := h
  exact ⟨rfl, _, snapshot_replicateToPeer self leader peer⟩

/-- Handling a message a second time changes neither the log nor `commit_index`. -/
theorem handleAppendEntries_twice {node : RaftNode ν Cmd} {payload : AppendEntries ν Cmd}
    {L : List (LogEntry Cmd)} {next : ℕ} (hsnap : Snapshot payload L next)
    (hlog : Matching LogEntry.term node.log L) :
    (handleAppendEntries (handleAppendEntries node payload).1 payload).1.log =
        (handleAppendEntries node payload).1.log ∧
      (handleAppendEntries (handleAppendEntries node payload).1 payload).1.commitIndex =
        (handleAppendEntries node payload).1.commitIndex := by
  rcases lt_or_ge payload.term node.currentTerm with hterm | hterm
  · rw [handleAppendEntries_of_stale node hterm, handleAppendEntries_of_stale node hterm]
    exact ⟨rfl, rfl⟩
  · have hterm' : (handleAppendEntries node payload).1.currentTerm ≤ payload.term := by
      rw [handleAppendEntries_currentTerm, max_eq_right hterm]
    cases hprev : prevMatches node.log payload.prevLogIndex payload.prevLogTerm with
    | false =>
        rw [handleAppendEntries_of_mismatch node hterm hprev] at hterm' ⊢
        rw [handleAppendEntries_of_mismatch _ hterm' hprev]
        exact ⟨rfl, rfl⟩
    | true =>
        have hstored := log_of_prevMatches hsnap hterm hprev
        have hcommit := commitIndex_of_prevMatches hterm hprev
        generalize (handleAppendEntries node payload).1 = node' at *
        cases hprev' : prevMatches node'.log payload.prevLogIndex payload.prevLogTerm with
        | false =>
            rw [handleAppendEntries_of_mismatch node' hterm' hprev']
            exact ⟨rfl, rfl⟩
        | true =>
            have hsame : (handleAppendEntries node' payload).1.log = node'.log := by
              rw [log_of_prevMatches hsnap hterm' hprev']
              rcases lt_or_ge L.length next with hlt | hge
              · rw [List.drop_eq_nil_of_le hlt.le, appendLoop_nil]
              · obtain ⟨htake, hlen⟩ := take_eq_of_matching hsnap hlog hge hprev
                -- the first time has installed the leader's log
                rw [appendLoop_of_matching (L.length - next) next node.log (by omega) hlog htake
                  hlen] at hstored
                have hL : L <+: node'.log := hstored ▸ prefix_overlay
                rw [appendLoop_of_matching (L.length - next) next node'.log (by omega)
                  (matching_of_isPrefix hL).symm ((List.prefix_iff_eq_take.1 (hL.take next)).trans
                    (by rw [List.take_take, List.length_take, min_eq_left hge, min_self])).symm
                  (hge.trans hL.length_le), overlay_of_isPrefix hL]
            refine ⟨hsame, ?_⟩
            rw [commitIndex_of_prevMatches hterm' hprev', hsame]
            split_ifs at hcommit ⊢ <;> omega

section Versions

variable {version : ℕ → List (LogEntry Cmd)} {T : ℕ} {self : ν} {node follower : RaftNode ν Cmd}
  {payload : AppendEntries ν Cmd} {k : ℕ}

/-- Of two versions one extends the other. -/
theorem version_mono (hgrow : ∀ k, version k <+: version (k + 1)) {i j : ℕ} (hij : i ≤ j) :
    version i <+: version j := by
  induction hij with
  | refl => exact List.prefix_refl _
  | step _ ih => exact ih.trans (hgrow _)

theorem version_total (hgrow : ∀ k, version k <+: version (k + 1)) (i j : ℕ) :
    version i <+: version j ∨ version j <+: version i :=
  (le_total i j).imp (version_mono hgrow) (version_mono hgrow)

/-- The log keeps what it shares with every version. -/
theorem MatchesVersions.log (h : MatchesVersions version T node)
    (hpayload : BuiltFrom self T (version k) payload) :
    (handleAppendEntries node payload).1.log = node.log ∨
      (handleAppendEntries node payload).1.log = overlay node.log (version k) := by
  obtain ⟨-, next, hsnap⟩ := hpayload.snapshot
  exact log_of_matching hsnap (h.matching k)

theorem MatchesVersions.handle (hgrow : ∀ k, version k <+: version (k + 1))
    (hpos : ∀ k, ∀ e ∈ version k, 0 < e.term) (h : MatchesVersions version T node)
    (hpayload : BuiltFrom self T (version k) payload) :
    MatchesVersions version T (handleAppendEntries node payload).1 := by
  refine ⟨?_, ?_, fun j => ?_⟩
  · rw [handleAppendEntries_currentTerm, hpayload.snapshot.1]
    exact max_le h.term le_rfl
  · rcases h.log hpayload with hlog | hlog <;> rw [hlog]
    · exact h.pos
    · by_cases hpre : version k <+: node.log
      · rw [overlay_of_isPrefix hpre]
        exact h.pos
      · rw [overlay_of_not_isPrefix hpre]
        exact hpos k
  · rcases h.log hpayload with hlog | hlog <;> rw [hlog]
    · exact h.matching j
    · exact (h.matching j).overlay (version_total hgrow k j)

/-- The invariant after any messages about the versions. -/
theorem MatchesVersions.handleAll (hgrow : ∀ k, version k <+: version (k + 1))
    (hpos : ∀ k, ∀ e ∈ version k, 0 < e.term) {payloads : List (AppendEntries ν Cmd)}
    (hpayloads : ∀ payload ∈ payloads, ∃ k, BuiltFrom self T (version k) payload)
    (h : MatchesVersions version T follower) :
    MatchesVersions version T (handleAll follower payloads) := by
  induction payloads generalizing follower with
  | nil => exact h
  | cons payload payloads ih =>
      obtain ⟨k, hk⟩ := hpayloads payload List.mem_cons_self
      exact ih (fun p hp => hpayloads p (List.mem_cons_of_mem _ hp)) (h.handle hgrow hpos hk)

/-- **Late and repeated messages do not undo replication.**  Whatever messages about the versions of
a leader's log a follower has handled, in whatever order: the next one does not shrink what its log
shares with any version; if it is accepted, what is shared with that version and the later ones
covers the message; and handling it again right away changes nothing. -/
theorem replication_keeps [DecidableEq Cmd] (hgrow : ∀ k, version k <+: version (k + 1))
    (hpos : ∀ k, ∀ e ∈ version k, 0 < e.term) (hterm : follower.currentTerm ≤ T)
    (hfollower : ∀ e ∈ follower.log, 0 < e.term)
    (hmatching : ∀ k, Matching LogEntry.term follower.log (version k))
    {payloads : List (AppendEntries ν Cmd)}
    (hpayloads : ∀ payload ∈ payloads, ∃ k, BuiltFrom self T (version k) payload)
    (hpayload : BuiltFrom self T (version k) payload) :
    let before := handleAll follower payloads
    let after := (handleAppendEntries before payload).1
    (∀ j, commonPrefix before.log (version j) ≤ commonPrefix after.log (version j)) ∧
    (accepted (handleAppendEntries before payload).2 = true →
      ∀ j, k ≤ j → payload.lastIndex < commonPrefix after.log (version j)) ∧
    (handleAppendEntries after payload).1.log = after.log ∧
    (handleAppendEntries after payload).1.commitIndex = after.commitIndex := by
  have h : MatchesVersions version T (handleAll follower payloads) :=
    MatchesVersions.handleAll hgrow hpos hpayloads ⟨hterm, hfollower, hmatching⟩
  intro before after
  obtain ⟨hT, next, hsnap⟩ := hpayload.snapshot
  refine ⟨fun j => ?_, fun haccepted j hj => ?_, handleAppendEntries_twice hsnap (h.matching k)⟩
  · rcases h.log hpayload with hlog | hlog <;> rw [hlog]
    exact commonPrefix_le_overlay (version_total hgrow k j)
  · obtain ⟨hle, hprev⟩ := (accepted_iff before payload).1 haccepted
    obtain ⟨-, hnext⟩ := next_le_of_prevMatches hsnap h.pos hprev
    obtain ⟨htake, hlen⟩ := take_eq_of_matching hsnap (h.matching k) hnext hprev
    have hlog : after.log = overlay before.log (version k) :=
      (log_of_prevMatches hsnap hle hprev).trans
        (appendLoop_of_matching ((version k).length - next) next before.log (by omega)
          (h.matching k) htake hlen)
    have hshared : (version k).length ≤ commonPrefix after.log (version j) := by
      have hkj := version_mono hgrow hj
      refine le_commonPrefix_iff.2 ⟨hkj.length_le, ?_⟩
      rw [← List.prefix_iff_eq_take.1 hkj, hlog]
      exact prefix_overlay
    rw [AppendEntries.lastIndex, hsnap.prevLogIndex, hsnap.entries, List.length_drop]
    omega

/-- The log of that leader grows by its second entry, and the follower handles a message about the
longer log after one about the shorter log. -/
theorem replication_keeps_lagging :
    let version (k : ℕ) := seasoned.log.take (k + 1)
    let first := replicateToPeer 0 { seasoned with log := version 0, nextIndex := fun _ => 0 } 1
    let second := replicateToPeer 0 { seasoned with nextIndex := fun _ => 1 } 1
    second.lastIndex < commonPrefix
      (handleAppendEntries (handleAll lagging [first]) second).1.log (version 1) := by
  intro version first second
  have hkeeps := @replication_keeps ℕ ℕ version 2 0 lagging second 1 _
    (fun k => List.take_prefix_take_left (Nat.le_succ _))
    (fun k e he => (by decide : ∀ e ∈ seasoned.log, 0 < e.term) e (List.mem_of_mem_take he))
    (by decide) (by decide) (fun k => matching_lagging.of_isPrefix (List.take_prefix _ _))
    [first] (fun payload hpayload => ⟨0, _, 1, rfl, rfl, List.mem_singleton.1 hpayload⟩)
    ⟨{ seasoned with nextIndex := fun _ => 1 }, 1, rfl, rfl, rfl⟩
  exact hkeeps.2.1 (by decide) 1 le_rfl

end Versions

/-! ### The repair -/

section Repair

variable [DecidableEq ν] {self peer : ν}

/-- One call of `_replicate_to_peer`: its message is handled by the follower, and the answer by the
leader.  The second component is what the call returns. -/
def repairCall (self peer : ν) : RaftNode ν Cmd × RaftNode ν Cmd →
    (RaftNode ν Cmd × RaftNode ν Cmd) × Bool
  | (leader, follower) =>
      let payload := replicateToPeer self leader peer
      let handled := handleAppendEntries follower payload
      let replied :=
        replicateReply leader peer (leader.nextIndex peer) payload.entries.length handled.2
      ((replied.1, handled.1), replied.2)

/-- The leader and the follower after a number of calls. -/
def afterCalls (self peer : ν) : ℕ → RaftNode ν Cmd × RaftNode ν Cmd →
    RaftNode ν Cmd × RaftNode ν Cmd
  | 0, nodes => nodes
  | k + 1, nodes => afterCalls self peer k (repairCall self peer nodes).1

/-- The message of the next call and its answer both arrive. -/
def delivered (self peer : ν) (nodes : RaftNode ν Cmd × RaftNode ν Cmd) : Prop :=
  (handleAppendEntries nodes.2 (replicateToPeer self nodes.1 peer)).2.isSome = true

instance (self peer : ν) (nodes : RaftNode ν Cmd × RaftNode ν Cmd) :
    Decidable (delivered self peer nodes) := inferInstanceAs (Decidable (_ = _))

/-- A refused call moves `next_index` back by one, and the follower keeps its log. -/
theorem repairCall_refused {leader follower : RaftNode ν Cmd}
    (hterm : follower.currentTerm ≤ leader.currentTerm)
    (hprev : prevMatches follower.log (replicateToPeer self leader peer).prevLogIndex
      (replicateToPeer self leader peer).prevLogTerm = false) :
    repairCall self peer (leader, follower) =
      (({ leader with
          nextIndex := Function.update leader.nextIndex peer (leader.nextIndex peer - 1) },
        acceptLeader follower leader.currentTerm self), false) := by
  have hhandled : handleAppendEntries follower (replicateToPeer self leader peer) =
      (acceptLeader follower leader.currentTerm self, some ⟨leader.currentTerm, false⟩) :=
    handleAppendEntries_of_mismatch follower hterm hprev
  rw [repairCall, hhandled]
  rfl

/-- An accepted call brings `next_index` and `match_index` to the end of the leader's log, which
the follower then has. -/
theorem repairCall_accepted {leader follower : RaftNode ν Cmd}
    (hterm : follower.currentTerm ≤ leader.currentTerm) (hpos : ∀ e ∈ follower.log, 0 < e.term)
    (hmatching : Matching LogEntry.term follower.log leader.log)
    (hdelivered : delivered self peer (leader, follower))
    (hprev : prevMatches follower.log (replicateToPeer self leader peer).prevLogIndex
      (replicateToPeer self leader peer).prevLogTerm = true) :
    (repairCall self peer (leader, follower)).2 = true ∧
      (repairCall self peer (leader, follower)).1.1.nextIndex peer = leader.log.length ∧
      (repairCall self peer (leader, follower)).1.1.matchIndex peer = (leader.log.length : ℤ) - 1 ∧
      (repairCall self peer (leader, follower)).1.2.log.take leader.log.length = leader.log := by
  have hsnap := snapshot_replicateToPeer self leader peer
  obtain ⟨-, hnext⟩ := next_le_of_prevMatches hsnap hpos hprev
  obtain ⟨htake, hlen⟩ := take_eq_of_matching hsnap hmatching hnext hprev
  have hend : leader.nextIndex peer + (replicateToPeer self leader peer).entries.length =
      leader.log.length := by
    rw [hsnap.entries, List.length_drop]
    omega
  have hlog : leader.log <+:
      (handleAppendEntries follower (replicateToPeer self leader peer)).1.log := by
    rw [log_of_prevMatches hsnap hterm hprev, appendLoop_of_matching
      (leader.log.length - leader.nextIndex peer) _ follower.log (by omega) hmatching htake hlen]
    exact prefix_overlay
  obtain ⟨reply, hreply⟩ := Option.isSome_iff_exists.1 hdelivered
  have hsuccess : reply.success = true := by
    have := (accepted_iff follower (replicateToPeer self leader peer)).2 ⟨hterm, hprev⟩
    rwa [hreply] at this
  simp only [repairCall, hreply, replicateReply, hsuccess, if_true, Function.update_self, hend,
    true_and]
  exact (List.prefix_iff_eq_take.1 hlog).symm

/-- **The repair ends.**  When the messages and answers arrive and the two logs match, one of the
first `next_index + 1` calls returns `True`, all before it return `False`, and then both sides have
the leader's log. -/
theorem repair_terminates {leader follower : RaftNode ν Cmd}
    (hterm : follower.currentTerm ≤ leader.currentTerm) (hpos : ∀ e ∈ follower.log, 0 < e.term)
    (hmatching : Matching LogEntry.term follower.log leader.log)
    (hdelivered : ∀ k ≤ leader.nextIndex peer,
      delivered self peer (afterCalls self peer k (leader, follower))) :
    ∃ k ≤ leader.nextIndex peer,
      (∀ j < k, (repairCall self peer (afterCalls self peer j (leader, follower))).2 = false) ∧
      (repairCall self peer (afterCalls self peer k (leader, follower))).2 = true ∧
      (afterCalls self peer (k + 1) (leader, follower)).1.log = leader.log ∧
      (afterCalls self peer (k + 1) (leader, follower)).1.nextIndex peer = leader.log.length ∧
      (afterCalls self peer (k + 1) (leader, follower)).1.matchIndex peer =
        (leader.log.length : ℤ) - 1 ∧
      (afterCalls self peer (k + 1) (leader, follower)).2.log.take leader.log.length =
        leader.log := by
  induction hnext : leader.nextIndex peer generalizing leader follower with
  | zero =>
      -- there is nothing in front of the whole log, so the follower accepts it
      have hprev : prevMatches follower.log (replicateToPeer self leader peer).prevLogIndex
          (replicateToPeer self leader peer).prevLogTerm = true := by
        simp [replicateToPeer, hnext, prevMatches]
      obtain ⟨hsuccess, hdone⟩ := repairCall_accepted hterm hpos hmatching
        (hdelivered 0 (Nat.zero_le _)) hprev
      exact ⟨0, le_rfl, fun _ hj => absurd hj (Nat.not_lt_zero _), hsuccess,
        replicateReply_log .., hdone⟩
  | succ next ih =>
      cases hprev : prevMatches follower.log (replicateToPeer self leader peer).prevLogIndex
          (replicateToPeer self leader peer).prevLogTerm with
      | true =>
          obtain ⟨hsuccess, hdone⟩ := repairCall_accepted hterm hpos hmatching
            (hdelivered 0 (Nat.zero_le _)) hprev
          exact ⟨0, Nat.zero_le _, fun _ hj => absurd hj (Nat.not_lt_zero _), hsuccess,
            replicateReply_log .., hdone⟩
      | false =>
          have hcall := repairCall_refused hterm hprev
          rw [hnext, Nat.add_sub_cancel] at hcall
          have hself : Function.update leader.nextIndex peer next peer = next :=
            Function.update_self _ _ _
          have hafter : ∀ k, afterCalls self peer (k + 1) (leader, follower) =
              afterCalls self peer k ({ leader with
                nextIndex := Function.update leader.nextIndex peer next },
                acceptLeader follower leader.currentTerm self) := by
            intro k
            rw [afterCalls, hcall]
          obtain ⟨k, hk, hbefore, hreturns, hdone⟩ := @ih
            { leader with nextIndex := Function.update leader.nextIndex peer next }
            (acceptLeader follower leader.currentTerm self)
            (by rw [acceptLeader_currentTerm, max_eq_right hterm]) hpos hmatching
            (fun k hk => by
              rw [← hafter]
              refine hdelivered (k + 1) ?_
              rw [hnext]
              exact Nat.succ_le_succ (hk.trans hself.le)) hself
          refine ⟨k + 1, Nat.succ_le_succ hk, fun j hj => ?_, ?_, ?_⟩
          · cases j with
            | zero => exact congrArg Prod.snd hcall
            | succ j =>
                rw [hafter]
                exact hbefore j (Nat.lt_of_succ_lt_succ hj)
          · rw [hafter]
            exact hreturns
          · rw [hafter]
            exact hdone

/-- The leader above starts beyond the end of its log, and needs three calls. -/
theorem repair_terminates_lagging :
    ∃ k ≤ 3, (repairCall 0 1 (afterCalls 0 1 k (seasoned, lagging))).2 = true ∧
      (afterCalls 0 1 (k + 1) (seasoned, lagging)).2.log.take 2 = [⟨1, 7⟩, ⟨2, 8⟩] := by
  obtain ⟨k, hk, -, hreturns, -, -, -, hlog⟩ := repair_terminates (by decide : 1 ≤ 2)
    (by decide : ∀ e ∈ lagging.log, 0 < e.term) matching_lagging
    (by decide : ∀ k ≤ seasoned.nextIndex 1, delivered 0 1 (afterCalls 0 1 k (seasoned, lagging)))
  exact ⟨k, hk, hreturns, hlog⟩

end Repair

end Raft
