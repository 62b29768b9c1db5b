/-
**Elections against the history.**

Starting an election and granting a vote cast a ballot, unless the vote was given before; refusing
one is going to the term of the request.  Winning a tally in the term it was started in is winning
the term in the history: a candidate whose term has got another leader in the meantime does not have
the votes, and as long as it has none the candidate has the log it described.

Main definitions:

* `Raft.Follows` — the cluster is what moves of a history have made of it.

Main results:

* `Raft.Tracks.electionTimeout`, `Raft.Tracks.requestVote`, `Raft.Tracks.electionWon`,
  `Raft.Tracks.electionLost` — **elections keep the history**.
-/

import DistSync.RaftHistory

set_option relaxedAutoImplicit false
set_option autoImplicit false

namespace Raft

open Runs TermLog TermConsensus

variable {ν Cmd : Type} {t t' : History ν Cmd} {n : ν} {p p' : Process ν Cmd}

/-! ### Votes after a step -/

/-- A node that goes on to a term, in which it leads or does not lead already. -/
theorem VoteTracks.raise (h : VoteTracks t n p) (hE : Extends t t') (hlead : t'.lead = t.lead)
    (hterm : p'.raft.currentTerm = t'.term n) (hlog : p'.raft.log = t'.log n)
    (hstate : p'.raft.state = .leader ↔ Leads t n (t'.term n))
    (hvote : ∀ c, p'.raft.votedFor = some c ↔ ∃ L, t'.ballot n (t'.term n) = some (c, L))
    (hel : ∀ payload, p'.election = some payload →
      p.election = some payload ∧ payload.term ≤ t.term n ∧
        (t'.term n = payload.term → t.lead payload.term = none → t'.log n = t.log n) ∨
      ¬ Leads t n payload.term ∧ payload.describes (t'.log n)) : VoteTracks t' n p' := by
  have hleads : ∀ T, Leads t' n T ↔ Leads t n T := fun T => by rw [Leads, Leads, hlead]
  refine ⟨hterm, hlog, hstate.trans (hleads _).symm, hvote, fun payload hpayload => ?_⟩
  rw [hleads, hlead]
  rcases hel payload hpayload with ⟨hold, hle, hsame⟩ | ⟨hnot, hdescribes⟩
  · obtain ⟨hnot, hdescribes⟩ := h.election payload hold
    refine ⟨hnot, fun hT hnone => ?_⟩
    rw [hsame hT hnone]
    exact hdescribes (le_antisymm (hT ▸ hE.term n) hle) hnone
  · exact ⟨hnot, fun _ _ => hdescribes⟩

/-- In a term it has not been in, a node has not voted. -/
theorem ballot_eq_none {A : Quorums ν} (hI : Inv A LogEntry.term t) {T : ℕ} (hT : t.term n < T) :
    t.ballot n T = none := by
  cases hb : t.ballot n T with
  | none => rfl
  | some b =>
      have hle := hI.ballot_le n T b hb
      omega

theorem vote_of_adopt {A : Quorums ν} (h : VoteTracks t n p) (hI : Inv A LogEntry.term t) {T : ℕ}
    (hT : t.term n ≤ T) {votedFor : Option ν}
    (hvote : votedFor = if t.term n < T then none else p.raft.votedFor) (c : ν) :
    votedFor = some c ↔ ∃ L, t.ballot n T = some (c, L) := by
  rw [hvote]
  rcases hT.lt_or_eq with hlt | rfl
  · rw [if_pos hlt, ballot_eq_none hI hlt]
    constructor
    · intro hnone
      cases hnone
    · rintro ⟨L, hnone⟩
      cases hnone
  · rw [if_neg (lt_irrefl _)]
    exact h.vote c

section Cluster

variable [DecidableEq ν] {M : Membership ν} {s s' : Cluster ν Cmd}

/-- Moves make a history that of the cluster. -/
def Follows (M : Membership ν) (t : History ν Cmd) (s : Cluster ν Cmd) : Prop :=
  ∃ t', Reaches M.quorums LogEntry.term t t' ∧ Tracks M t' s

/-- The payload of a pending election was sent, so it is not of a later term. -/
theorem Tracks.election_term_le (hT : Tracks M t s) (hE : ElectionInv M s) {payload : RequestVote ν}
    (hel : (s.nodes n).election = some payload) : payload.term ≤ t.term n := by
  obtain ⟨-, hcall, rfl⟩ := hE n payload hel
  exact (hT.voteNet.call payload hcall).2

/-- A new ballot was cast for a request. -/
theorem VoteNet.ballot_cast (h : VoteNet t s) {payload : RequestVote ν}
    {calls : List (RequestVote ν)} (hcalls : s.voteCalls ⊆ calls) (hcall : payload ∈ calls)
    (hconvinces : payload.convinces (t.log n)) :
    ∀ q T c L, (t.cast n payload.term payload.candidateId).ballot q T = some (c, L) →
      ∃ payload ∈ calls, payload.candidateId = c ∧ payload.term = T ∧ payload.convinces L := by
  intro q T c L hb
  simp only [State.cast] at hb
  split at hb
  · next heq =>
      cases hb
      exact ⟨payload, hcall, rfl, heq.2.symm, hconvinces⟩
  · obtain ⟨payload', hmem, hfits⟩ := h.ballot q T c L hb
    exact ⟨payload', hcalls hmem, hfits⟩

/-! ### Elections -/

omit [DecidableEq ν] in
/-- The payload of an election describes the log of the candidate, which finds it up to date. -/
theorem describes_startElection (self : ν) (node : RaftNode ν Cmd) :
    (startElection self node).2.describes node.log ∧
      (startElection self node).2.convinces node.log := by
  refine ⟨⟨rfl, rfl⟩, fun voter hlog => ?_⟩
  cases hlast : node.log.getLast? with
  | none => simp only [isLogUpToDate, hlog, hlast]
  | some last => simp [isLogUpToDate, startElection, hlog, hlast]

theorem Tracks.electionTimeout (hI : Inv M.quorums LogEntry.term t) (hT : Tracks M t s)
    (h : Moves M s (.electionTimeout n) s')
    (hs' : s' = { s.set n { s.nodes n with
        raft := (startElection n (s.nodes n).raft).1
        election := some (startElection n (s.nodes n).raft).2 } with
      voteCalls := s.voteCalls ++ [(startElection n (s.nodes n).raft).2] }) : Follows M t s' := by
  have hvote := hT.vote n
  set payload := (startElection n (s.nodes n).raft).2 with hpayload
  have hterm : payload.term = t.term n + 1 := by rw [← hvote.term]; rfl
  have hfree : t.ballot n payload.term = none := ballot_eq_none hI (by omega)
  have hmove : Move t M.quorums LogEntry.term n (t.cast n payload.term n) :=
    .cast (by omega) hfree
  have hE := hmove.extends
  have hnew : (t.cast n payload.term n).term n = payload.term := Function.update_self _ _ _
  have hnot : ¬ Leads t n payload.term := by
    rintro ⟨l, hl, rfl⟩
    have hle := (hI.lead _ l hl).term
    omega
  obtain ⟨hdescribes, hconvinces⟩ := describes_startElection n (s.nodes n).raft
  rw [← hpayload, hvote.log] at hdescribes hconvinces
  subst hs'
  refine ⟨_, .single ⟨n, hmove⟩, hT.set hI h hE (fun m hm => hmove.apart hm) rfl
    (hvote.raise hE rfl ?_ hvote.log ?_ (fun c => ?_) fun payload' hel => .inr ?_)
    ((hT.copy n).extends hI hE (fun hlead => hlead.of_lead_eq hI hE rfl) rfl (fun _ h => h) rfl)
    ((hT.commit n).extends hE rfl rfl rfl rfl) ⟨?_, fun payload' hmem => ?_, ?_⟩
    (hT.copyNet.extends hE rfl rfl rfl)⟩
  · rw [hnew]
    rfl
  · rw [hnew]
    exact ⟨fun hcandidate => (by cases hcandidate), fun hlead => absurd hlead hnot⟩
  · rw [hnew]
    simp [startElection, State.cast]
  · obtain rfl := Option.some.inj hel
    exact ⟨hnot, hdescribes⟩
  · exact hT.voteNet.ballot_cast (List.subset_append_left _ _)
      (List.mem_append_right _ (List.mem_singleton_self _)) hconvinces
  · rcases List.mem_append.1 hmem with hmem | hmem
    · obtain ⟨hpos, hle⟩ := hT.voteNet.call payload' hmem
      exact ⟨hpos, hle.trans (hE.term _)⟩
    · obtain rfl := List.mem_singleton.1 hmem
      exact ⟨by omega, hnew.ge⟩
  · -- the term of the new request is later than those of the candidate's old ones
    have hother : ∀ payload' ∈ s.voteCalls, payload'.candidateId = n →
        payload'.term ≠ payload.term := by
      rintro payload' hmem rfl
      have hle := (hT.voteNet.call payload' hmem).2
      omega
    intro a ha b hb hid hterm'
    rcases List.mem_append.1 ha with ha | ha <;> rcases List.mem_append.1 hb with hb | hb
    · exact hT.voteNet.unique a ha b hb hid hterm'
    · obtain rfl := List.mem_singleton.1 hb
      exact absurd hterm' (hother a ha hid)
    · obtain rfl := List.mem_singleton.1 ha
      exact absurd hterm'.symm (hother b hb hid.symm)
    · rw [List.mem_singleton.1 ha, List.mem_singleton.1 hb]

/-! ### Votes -/

/-- After a vote request a node leads its term if it did before. -/
theorem leads_handleRequestVote (hvote : VoteTracks t n p) (hI : Inv M.quorums LogEntry.term t)
    (data : RequestVote ν) : (handleRequestVote p.raft data).1.state = .leader ↔
      Leads t n (max (t.term n) data.term) := by
  rw [handleRequestVote_state, hvote.term]
  rcases lt_or_ge (t.term n) data.term with hlt | hge
  · rw [if_pos hlt, max_eq_right hlt.le]
    refine ⟨fun h => (by cases h), ?_⟩
    rintro ⟨l, hl, rfl⟩
    have hle := (hI.lead _ l hl).term
    omega
  · rw [if_neg (not_lt.2 hge), max_eq_left hge]
    exact hvote.leader

/-- What a vote request is in the history: a ballot, or going to its term. -/
structure AnswersVote (M : Membership ν) (t t' : History ν Cmd) (n : ν) (node' : RaftNode ν Cmd)
    (data : RequestVote ν) : Prop where
  move : Move t M.quorums LogEntry.term n t'
  lead : t'.lead = t.lead
  term : t'.term n = max (t.term n) data.term
  log : t'.log = t.log
  vote : ∀ c, node'.votedFor = some c ↔ ∃ L, t'.ballot n (t'.term n) = some (c, L)
  ballot : t'.ballot = t.ballot ∨
    t' = t.cast n data.term data.candidateId ∧ data.convinces (t.log n)

theorem answersVote_adopt (hI : Inv M.quorums LogEntry.term t) (hvote : VoteTracks t n p)
    {node' : RaftNode ν Cmd} {data : RequestVote ν}
    (hvoted : node'.votedFor = if t.term n < data.term then none else p.raft.votedFor) :
    ∃ t', AnswersVote M t t' n node' data := by
  have hnew : (t.adopt n (max (t.term n) data.term)).term n = max (t.term n) data.term :=
    Function.update_self _ _ _
  have hlt : t.term n < max (t.term n) data.term ↔ t.term n < data.term := by
    rw [lt_max_iff]
    simp
  refine ⟨_, .adopt (le_max_left _ _), rfl, hnew, rfl, fun c => ?_, .inl rfl⟩
  rw [hnew]
  refine vote_of_adopt hvote hI (le_max_left _ _) ?_ c
  simp only [hlt]
  exact hvoted

/-- **A vote request is a ballot, or going to its term.** -/
theorem exists_answersVote (hI : Inv M.quorums LogEntry.term t) (hvote : VoteTracks t n p)
    (data : RequestVote ν) :
    ∃ t', AnswersVote M t t' n (handleRequestVote p.raft data).1 data := by
  cases hg : (handleRequestVote p.raft data).2.voteGranted with
  | false =>
      refine answersVote_adopt hI hvote ?_
      rw [handleRequestVote_refused _ hg, adoptTerm_votedFor, hvote.term]
  | true =>
      obtain ⟨hterm, hcan, huptodate, hnode⟩ := handleRequestVote_granted _ hg
      rw [hvote.term] at hterm
      by_cases hfree : t.ballot n data.term = none
      · refine ⟨t.cast n data.term data.candidateId, .cast hterm hfree, rfl, ?_, rfl, fun c => ?_,
          .inr ⟨rfl, fun voter hlog => ?_⟩⟩
        · rw [max_eq_right hterm]
          exact Function.update_self _ _ _
        · rw [hnode]
          simp [State.cast, State.adopt]
        · rw [← huptodate]
          simp only [isLogUpToDate, hlog, hvote.log]
      · -- the node has voted for this candidate before
        obtain ⟨⟨c, L⟩, hb⟩ := Option.ne_none_iff_exists'.1 hfree
        have hsame : t.term n = data.term := le_antisymm hterm (hI.ballot_le n _ _ hb)
        have hc := (hvote.vote c).2 ⟨L, hsame ▸ hb⟩
        rw [adoptTerm_of_le _ (by rw [hvote.term, hsame]), hc] at hcan
        have hcand : c = data.candidateId := by
          rcases hcan with hcan | hcan
          · cases hcan
          · exact Option.some.inj hcan
        refine answersVote_adopt hI hvote ?_
        rw [hnode, if_neg (by omega), hc, hcand]

theorem Tracks.requestVote (hI : Inv M.quorums LogEntry.term t) (hT : Tracks M t s)
    (hEl : ElectionInv M s) {call : ℕ} {payload : RequestVote ν}
    (hcall : s.voteCalls[call]? = some payload) (h : Moves M s (.requestVote call n) s')
    (hs' : s' = { s.set n { s.nodes n with
        raft := (handleRequestVote (s.nodes n).raft payload).1 } with
      voteReplies := s.voteReplies ++
        [⟨payload, n, (handleRequestVote (s.nodes n).raft payload).2⟩] }) : Follows M t s' := by
  have hvote := hT.vote n
  obtain ⟨t', hmove, hlead, hterm, hlog, hvoted, hballot⟩ := exists_answersVote hI hvote payload
  have hE := hmove.extends
  have hframe := fun {κ : Type} (f : RaftNode ν Cmd → κ) hf =>
    handleRequestVote_frame (s.nodes n).raft f hf payload
  subst hs'
  refine ⟨t', .single ⟨n, hmove⟩, hT.set hI h hE (fun m hm => hmove.apart hm) rfl
    (hvote.raise hE hlead ?_ ?_ ?_ hvoted fun payload' hel => .inl ⟨hel, ?_, fun _ _ => ?_⟩)
    ((hT.copy n).extends hI hE (fun hleads => hleads.of_lead_eq hI hE hlead)
      (hframe (·.matchIndex) fun _ _ _ _ => rfl) (fun _ h => h) rfl)
    ((hT.commit n).extends hE (hframe (·.log) fun _ _ _ _ => rfl)
      (hframe (·.commitIndex) fun _ _ _ _ => rfl) (hframe (·.lastApplied) fun _ _ _ _ => rfl)
      (hframe (·.applied) fun _ _ _ _ => rfl)) ?_ (hT.copyNet.extends hE rfl rfl rfl)⟩
  · rw [hterm, ← hvote.term]
    exact handleRequestVote_currentTerm _ _
  · rw [hlog, ← hvote.log]
    exact handleRequestVote_log _ _
  · rw [hterm]
    exact leads_handleRequestVote hvote hI payload
  · exact hT.election_term_le hEl hel
  · rw [hlog]
  · have hmem := List.mem_of_getElem? hcall
    refine ⟨?_, fun payload' hpayload' => ?_, hT.voteNet.unique⟩
    · rcases hballot with hsame | ⟨rfl, hconvinces⟩
      · rw [hsame]
        exact hT.voteNet.ballot
      · exact hT.voteNet.ballot_cast (fun _ h => h) hmem hconvinces
    · obtain ⟨hpos, hle⟩ := hT.voteNet.call payload' hpayload'
      exact ⟨hpos, hle.trans (hE.term _)⟩

/-! ### Tallies -/

/-- A candidate that has the votes of a majority in its term has won a term without a leader. -/
theorem exists_win (hI : Inv M.quorums LogEntry.term t) (hT : Tracks M t s) (hEl : ElectionInv M s)
    {payload : RequestVote ν} (hel : (s.nodes n).election = some payload)
    (hterm : t.term n = payload.term) (hwon : Won M s n payload.term) :
    ∃ Q, Move t M.quorums LogEntry.term n (t.win n Q) := by
  obtain ⟨Q, hQ, hgranted⟩ := hwon
  obtain ⟨-, hcall, hid⟩ := hEl n payload hel
  obtain ⟨hnot, hdescribes⟩ := (hT.vote n).election payload hel
  have hfree : t.lead payload.term = none := by
    cases hl : t.lead payload.term with
    | none => rfl
    | some l =>
        -- the leader of the term has the vote of one of the same voters
        have hlead := hI.lead _ l hl
        obtain ⟨q, hqQ, hq⟩ := M.quorums.inter hQ hlead.quorum
        obtain ⟨L, hb⟩ := hT.granted q n _ (hgranted q hqQ)
        obtain ⟨L', hb', -⟩ := hlead.elected q hq
        rw [hb, Option.some.injEq, Prod.mk.injEq] at hb'
        exact absurd ⟨l, hl, hb'.1.symm⟩ hnot
  refine ⟨Q, .win ?_ (hterm ▸ hfree) hQ fun q hq => ?_⟩
  · rw [hterm]
    exact (hT.voteNet.call payload hcall).1
  · obtain ⟨L, hb⟩ := hT.granted q n _ (hgranted q hq)
    obtain ⟨payload', hmem, hid', hterm', hconvinces⟩ := hT.voteNet.ballot q _ n L hb
    obtain rfl := hT.voteNet.unique payload' hmem payload hcall (hid'.trans hid.symm) hterm'
    exact ⟨L, hterm ▸ hb, upToDate_of_convinces (hdescribes hterm hfree) hconvinces⟩

theorem Tracks.electionWon (hI : Inv M.quorums LogEntry.term t) (hT : Tracks M t s)
    (hEl : ElectionInv M s) {replies : List (ν × VoteReply)} {payload : RequestVote ν}
    (hel : (s.nodes n).election = some payload) (hterm : t.term n = payload.term)
    (hwon : Won M s n payload.term) (h : Moves M s (.electionResult n replies) s')
    (hs' : s' = s.set n ((s.nodes n).won n (M.peers n))) : Follows M t s' := by
  have hvote := hT.vote n
  obtain ⟨Q, hmove⟩ := exists_win hI hT hEl hel hterm hwon
  have hE := hmove.extends
  have hleads : Leads (t.win n Q) n ((t.win n Q).term n) :=
    ⟨⟨n, Q, t.log n, t.log n⟩, Function.update_self _ _ _, rfl⟩
  subst hs'
  refine ⟨_, .single ⟨n, hmove⟩, hT.set hI h hE (fun m hm => hmove.apart hm) rfl
    ⟨hvote.term, hvote.log, iff_of_true rfl hleads, hvote.vote, fun _ hnone => (by cases hnone)⟩
    ((hT.copy n).of_matchIndex hI hE (fun _ peer hpeer => ?_)
      (fun _ h => List.mem_of_mem_filter h) rfl)
    ((hT.commit n).extends hE rfl rfl rfl rfl) (hT.voteNet.extends hE rfl rfl)
    (hT.copyNet.extends hE rfl rfl rfl)⟩
  simp only [Process.won, becomeLeader, if_pos hpeer]
  omega

theorem Tracks.electionLost (hI : Inv M.quorums LogEntry.term t) (hT : Tracks M t s)
    {replies : List (ν × VoteReply)} (h : Moves M s (.electionResult n replies) s')
    (hs' : s' = s.set n { s.nodes n with election := none }) : Follows M t s' := by
  have hvote := hT.vote n
  have hcopy := hT.copy n
  subst hs'
  exact ⟨t, .refl, hT.process hI h rfl
    ⟨hvote.term, hvote.log, hvote.leader, hvote.vote, fun _ hnone => (by cases hnone)⟩
    ⟨hcopy.matchIndex, hcopy.frame, hcopy.task⟩ (hT.commit n) rfl
    (hT.copyNet.extends (.refl t) rfl rfl rfl)⟩

end Cluster

end Raft
