/-
**Several appliers on one node.**

`_apply_committed` is called at the end of `handle_append_entries`, of `append_entry` and of
`_advance_commit_index`, and nothing keeps two calls apart.  In each round an applier claims the
next index and reads its entry under the state lock, and calls `apply_callback` after it has given
the lock back.  Between the claim and the call nothing is awaited, so the calls come in the order of
the log; but when the callback returns a coroutine, the applier waits for it outside the lock, and
another applier may claim the next index meanwhile.

This module lets any number of appliers take turns.  An applier gives way at most before it takes
the lock and while it waits for a coroutine; with a callback that never suspends, its rounds are
those of `Raft.applyCommitted`.

Main definitions:

* `Raft.Effect` — what a call of `apply_callback` does;
* `Raft.Appliers`, `Raft.applierStep` — a node with its running appliers;
* `Raft.AppliesInOrder` — commands take effect in log order, exactly once;
* `Raft.ClaimsAlone` — an index of the log is claimed while no coroutine is awaited.

Main results:

* `Raft.advanceCommitIndex_eq`, `Raft.rounds_eq_applyCommitted` — the link to the node of the
  cluster: its `_advance_commit_index` is the raise of `commit_index` here and an applier behind it,
  and its `_apply_committed` is one applier alone, for a callback that does not suspend;
* `Raft.appliesInOrder_iff` — **the order is kept as long as claims are made alone**;
* `Raft.appliesInOrder_fails` — two appliers and a coroutine that suspends.
-/

import DistSync.RaftNode
import DistSync.RunRules

set_option relaxedAutoImplicit false
set_option autoImplicit false

namespace Raft

open Runs

variable {ν Cmd : Type}

/-! ### Appliers -/

/-- What a call of `apply_callback` does: it returns a value that is no coroutine, or a coroutine
that runs through at once; it raises; or it returns a coroutine that suspends. -/
inductive Effect
  | returns
  | raises
  | suspends
deriving DecidableEq, Repr

/-- Where a call of `_apply_committed` stands. -/
inductive Applier
  /-- It is about to take the lock. -/
  | ready
  /-- It waits for the coroutine of the command at this index. -/
  | awaiting (index : ℤ)
  /-- It has returned or raised. -/
  | gone
deriving DecidableEq, Repr

/-- The processing of the command at an index begins, or is over. -/
inductive Event
  | began (index : ℤ)
  | ended (index : ℤ)
deriving DecidableEq, Repr

/-- The index of a command whose processing begins. -/
def Event.began? : Event → Option ℤ
  | .began index => some index
  | .ended _ => none

/-- A node with the calls of `_apply_committed` made so far, and the history of its commands. -/
structure Appliers (ν Cmd : Type) where
  node : RaftNode ν Cmd
  appliers : List Applier
  history : List Event

/-- What `_advance_commit_index` does under the lock; `none` when it raises. -/
def raiseCommitIndex (peers : List ν) (node : RaftNode ν Cmd) : Option (RaftNode ν Cmd) :=
  let matchIndexes :=
    (peers.map node.matchIndex ++ [(node.log.length : ℤ) - 1]).insertionSort (· ≥ ·)
  match matchIndexes[majority peers - 1]? with
  | none => none
  | some majorityIndex =>
      if node.commitIndex < majorityIndex then
        match node.log[majorityIndex.toNat]? with
        | none => none
        | some entry =>
            if entry.term = node.currentTerm then some { node with commitIndex := majorityIndex }
            else some node
      else some node

/-- The callers of `_apply_committed`. -/
inductive Caller (ν Cmd : Type)
  | handleAppendEntries (data : AppendEntries ν Cmd)
  | appendEntry (entryIndex : ℕ)
  | advanceCommitIndex (peers : List ν)

/-- What a caller does to the node before it calls `_apply_committed`; `none` when it does not get
that far. -/
def Caller.prologue (node : RaftNode ν Cmd) : Caller ν Cmd → Option (RaftNode ν Cmd)
  | .handleAppendEntries data =>
      if node.currentTerm ≤ data.term ∧
          prevMatches node.log data.prevLogIndex data.prevLogTerm = true then
        some (storeEntries (acceptLeader node data.term data.leaderId) data)
      else none
  | .appendEntry entryIndex =>
      some { node with
        commitIndex := if node.commitIndex < entryIndex then entryIndex else node.commitIndex }
  | .advanceCommitIndex peers => raiseCommitIndex peers node

/-- One round of the loop of `_apply_committed`, by the applier at position `k`. -/
def applyRound (callback : List Cmd → Cmd → Effect) (k : ℕ) (s : Appliers ν Cmd) :
    Appliers ν Cmd :=
  if s.node.commitIndex ≤ s.node.lastApplied then { s with appliers := s.appliers.set k .gone }
  else
    let index := s.node.lastApplied + 1
    match s.node.log[index.toNat]? with
    -- reading the log raises when `last_applied` has been advanced
    | none =>
        { s with
          node := { s.node with lastApplied := index }
          appliers := s.appliers.set k .gone }
    | some entry =>
        let node := { s.node with
          lastApplied := index
          applied := s.node.applied ++ [(index, entry.command)] }
        match callback (s.node.applied.map Prod.snd) entry.command with
        | .returns => { s with node := node, history := s.history ++ [.began index, .ended index] }
        | .raises =>
            { node := node
              appliers := s.appliers.set k .gone
              history := s.history ++ [.began index, .ended index] }
        | .suspends =>
            { node := node
              appliers := s.appliers.set k (.awaiting index)
              history := s.history ++ [.began index] }

/-- The steps of a node with its appliers. -/
inductive ApplierAction (ν Cmd : Type)
  /-- A caller calls `_apply_committed`. -/
  | call (caller : Caller ν Cmd)
  /-- Any other stretch of the node; it has nothing to do with `commit_index` or the appliers. -/
  | other (node : RaftNode ν Cmd)
  /-- An applier takes the lock and does a round. -/
  | round (k : ℕ)
  /-- The coroutine that an applier waits for returns, or raises. -/
  | resume (k : ℕ) (returns : Bool)

/-- **One step of a node with its appliers.** -/
def applierStep (callback : List Cmd → Cmd → Effect) (s : Appliers ν Cmd) :
    ApplierAction ν Cmd → Option (Appliers ν Cmd)
  | .call caller =>
      (caller.prologue s.node).map fun node =>
        { s with node := node, appliers := s.appliers ++ [.ready] }
  | .other node =>
      some { s with node := { node with
        commitIndex := s.node.commitIndex
        lastApplied := s.node.lastApplied
        applied := s.node.applied } }
  | .round k =>
      match s.appliers[k]? with
      | some .ready => some (applyRound callback k s)
      | _ => none
  | .resume k returns =>
      match s.appliers[k]? with
      | some (.awaiting index) =>
          some { s with
            appliers := s.appliers.set k (if returns = true then .ready else .gone)
            history := s.history ++ [.ended index] }
      | _ => none

/-- A new node, without appliers. -/
def idle : Appliers ν Cmd := ⟨init fun _ _ => true, [], []⟩

/-! ### The rounds of one applier -/

/-- `_advance_commit_index` raises `commit_index` under the lock and calls `_apply_committed`. -/
theorem advanceCommitIndex_eq (peers : List ν) (node : RaftNode ν Cmd) :
    advanceCommitIndex peers node =
      match raiseCommitIndex peers node with
      | none => (node, false)
      | some node' => applyCommitted node' := by
  simp only [advanceCommitIndex, raiseCommitIndex]
  generalize ((peers.map node.matchIndex ++
    [(node.log.length : ℤ) - 1]).insertionSort (· ≥ ·))[majority peers - 1]? = candidate
  cases candidate with
  | none => rfl
  | some majorityIndex =>
      simp only
      by_cases hlt : node.commitIndex < majorityIndex
      · rw [if_pos hlt, if_pos hlt]
        cases node.log[majorityIndex.toNat]? with
        | none => rfl
        | some entry =>
            simp only
            by_cases hterm : entry.term = node.currentTerm
            · rw [if_pos hterm, if_pos hterm]
            · rw [if_neg hterm, if_neg hterm]
      · rw [if_neg hlt, if_neg hlt]

/-- **The rounds of one applier**, when the callback never suspends, are those of
`Raft.applyCommitted`. -/
theorem rounds_eq_applyCommitted {callback : List Cmd → Cmd → Effect} {s : Appliers ν Cmd} {k : ℕ}
    (hplain : ∀ cmds cmd, callback cmds cmd =
      if s.node.applyCallback cmds cmd = true then .returns else .raises)
    (hk : s.appliers[k]? = some .ready) :
    ∃ s', Run (applierStep callback) anyAction s s' ∧ s'.node = (applyCommitted s.node).1 ∧
      s'.appliers = s.appliers.set k .gone := by
  have hround : ∀ s : Appliers ν Cmd, s.appliers[k]? = some .ready →
      Run (applierStep callback) anyAction s (applyRound callback k s) := fun s hk =>
    .single (a := .round k) trivial (by simp only [applierStep, hk])
  unfold applyCommitted
  generalize hrounds : (s.node.commitIndex - s.node.lastApplied).toNat = rounds
  -- induction on the number of rounds that are left
  induction rounds generalizing s with
  | zero =>
      have hle : s.node.commitIndex ≤ s.node.lastApplied := by omega
      refine ⟨_, hround s hk, ?_, ?_⟩ <;> rw [applyRound, if_pos hle]
      rfl
  | succ rounds ih =>
      have hlt : ¬ s.node.commitIndex ≤ s.node.lastApplied := by omega
      cases hentry : s.node.log[(s.node.lastApplied + 1).toNat]? with
      | none =>
          refine ⟨_, hround s hk, ?_, ?_⟩ <;> simp only [applyRound, if_neg hlt, hentry, applyLoop]
      | some entry =>
          have hcall := hplain (s.node.applied.map Prod.snd) entry.command
          by_cases hreturns :
              s.node.applyCallback (s.node.applied.map Prod.snd) entry.command = true
          · rw [if_pos hreturns] at hcall
            have hnext := hround s hk
            simp only [applyRound, if_neg hlt, hentry, hcall] at hnext
            obtain ⟨s', hrun, hnode, happliers⟩ := ih hplain hk (by simp only; omega)
              (s := { s with
                node := { s.node with
                  lastApplied := s.node.lastApplied + 1
                  applied := s.node.applied ++ [(s.node.lastApplied + 1, entry.command)] }
                history := s.history ++ [.began (s.node.lastApplied + 1),
                  .ended (s.node.lastApplied + 1)] })
            refine ⟨s', hnext.trans hrun, ?_, happliers⟩
            rw [hnode]
            simp only [applyLoop, hentry, hreturns, if_true]
          · rw [if_neg hreturns] at hcall
            refine ⟨_, hround s hk, ?_, ?_⟩ <;>
              simp [applyRound, hlt, hentry, hcall, applyLoop, hreturns]

/-! ### In log order, exactly once -/

/-- The processing of a command begins when that of the one before is over. -/
def Ordered (history : List Event) : Prop :=
  ∀ (k : ℕ) (i : ℤ), history[k]? = some (.began i) → 0 < i → .ended (i - 1) ∈ history.take k

/-- **Commands take effect in log order, exactly once**: the callback was called once for each index
up to `last_applied`, in this order, and each command was through before the next one began. -/
structure AppliesInOrder (s : Appliers ν Cmd) : Prop where
  calls : s.node.applied.map Prod.fst =
    (List.range (s.node.lastApplied + 1).toNat).map fun i : ℕ => (i : ℤ)
  events : s.history.filterMap Event.began? = s.node.applied.map Prod.fst
  order : Ordered s.history

/-- The calls of a step pass the commands that the log has at their indexes. -/
def ReadsLog (s s' : Appliers ν Cmd) : Prop :=
  ∀ call ∈ s'.node.applied.drop s.node.applied.length,
    ∃ entry ∈ s'.node.log[call.1.toNat]?, entry.command = call.2

/-- **A claim is made alone**: an applier claims an index while no coroutine is awaited, and the
index is one of the log. -/
def ClaimsAlone (s : Appliers ν Cmd) : ApplierAction ν Cmd → Prop
  | .round k => s.appliers[k]? = some .ready → s.node.lastApplied < s.node.commitIndex →
      (∀ i, .awaiting i ∉ s.appliers) ∧ s.node.lastApplied + 1 < s.node.log.length
  | _ => True

/-- What is kept besides the order: only the command at `last_applied` can be on its way. -/
structure AppliersInv (s : Appliers ν Cmd) : Prop where
  ge : -1 ≤ s.node.lastApplied
  inOrder : AppliesInOrder s
  ended : ∀ i : ℤ, 0 ≤ i → i ≤ s.node.lastApplied → .ended i ∈ s.history ∨ .awaiting i ∈ s.appliers
  fresh : ∀ i, s.node.lastApplied < i → .ended i ∉ s.history
  alone : ∀ i, .awaiting i ∈ s.appliers →
    i = s.node.lastApplied ∧ 0 ≤ i ∧ .ended i ∉ s.history
  one : ∀ (k k' : ℕ) (i i' : ℤ), s.appliers[k]? = some (Applier.awaiting i) →
    s.appliers[k']? = some (Applier.awaiting i') → k = k'

theorem appliersInv_idle : AppliersInv (idle : Appliers ν Cmd) where
  ge := le_rfl
  inOrder := ⟨rfl, rfl, fun _ _ h => nomatch h⟩
  ended := fun i hi hle => absurd (show (0 : ℤ) ≤ -1 from hi.trans hle) (by decide)
  fresh := fun _ _ => List.not_mem_nil
  alone := fun _ h => nomatch h
  one := fun _ _ _ _ h => nomatch h

theorem Ordered.snoc {history : List Event} (h : Ordered history) {event : Event}
    (hevent : ∀ i, event = .began i → 0 < i → .ended (i - 1) ∈ history) :
    Ordered (history ++ [event]) := by
  intro k i hk hi
  rcases Nat.lt_or_ge k history.length with hlt | hge
  · rw [List.getElem?_append_left hlt] at hk
    rw [List.take_append_of_le_length hlt.le]
    exact h k i hk hi
  · have hlen := (List.getElem?_eq_some_iff.1 hk).1
    obtain rfl : k = history.length := by
      rw [List.length_append, List.length_singleton] at hlen
      omega
    rw [List.take_left]
    exact hevent i (by simpa using hk) hi

/-- Endings may follow at any time. -/
theorem Ordered.append {events : List Event} (hevents : ∀ e ∈ events, e.began? = none) :
    ∀ {history : List Event}, Ordered history → Ordered (history ++ events) := by
  induction events with
  | nil =>
      intro history h
      rwa [List.append_nil]
  | cons event events ih =>
      intro history h
      rw [List.append_cons]
      refine ih (fun e he => hevents e (List.mem_cons_of_mem _ he)) (h.snoc fun i hi _ => ?_)
      have hnone := hevents event List.mem_cons_self
      rw [hi] at hnone
      cases hnone

/-- The history shows that the last command has not begun too early. -/
theorem Ordered.of_snoc {history rest : List Event} {i : ℤ}
    (h : Ordered (history ++ .began i :: rest)) (hi : 0 < i) : .ended (i - 1) ∈ history := by
  have := h history.length i (by simp) hi
  rwa [List.take_left] at this

theorem range_succ_toNat {n : ℤ} (hn : -1 ≤ n) :
    (List.range (n + 1 + 1).toNat).map (fun i : ℕ => (i : ℤ)) =
      (List.range (n + 1).toNat).map (fun i : ℕ => (i : ℤ)) ++ [n + 1] := by
  have hsucc : (n + 1 + 1).toNat = (n + 1).toNat + 1 := by omega
  have hcast : (((n + 1).toNat : ℕ) : ℤ) = n + 1 := by omega
  rw [hsucc, List.range_succ, List.map_append, List.map_singleton, hcast]

/-! ### The steps -/

/-- The node after index and command were claimed and passed to the callback. -/
def claimed (node : RaftNode ν Cmd) (command : Cmd) : RaftNode ν Cmd :=
  { node with
    lastApplied := node.lastApplied + 1
    applied := node.applied ++ [(node.lastApplied + 1, command)] }

/-- The ways a round can go. -/
inductive RoundMoves (s : Appliers ν Cmd) (k : ℕ) : Appliers ν Cmd → Prop
  | done (hle : s.node.commitIndex ≤ s.node.lastApplied) :
      RoundMoves s k { s with appliers := s.appliers.set k .gone }
  | outOfLog (hlt : s.node.lastApplied < s.node.commitIndex)
      (hentry : s.node.log[(s.node.lastApplied + 1).toNat]? = none) :
      RoundMoves s k { s with
        node := { s.node with lastApplied := s.node.lastApplied + 1 }
        appliers := s.appliers.set k .gone }
  | through {entry : LogEntry Cmd} (next : Applier) (hlt : s.node.lastApplied < s.node.commitIndex)
      (hentry : s.node.log[(s.node.lastApplied + 1).toNat]? = some entry)
      (hnext : ∀ i, next ≠ .awaiting i) :
      RoundMoves s k
        { node := claimed s.node entry.command
          appliers := s.appliers.set k next
          history := s.history ++
            [.began (s.node.lastApplied + 1), .ended (s.node.lastApplied + 1)] }
  | suspended {entry : LogEntry Cmd} (hlt : s.node.lastApplied < s.node.commitIndex)
      (hentry : s.node.log[(s.node.lastApplied + 1).toNat]? = some entry) :
      RoundMoves s k
        { node := claimed s.node entry.command
          appliers := s.appliers.set k (.awaiting (s.node.lastApplied + 1))
          history := s.history ++ [.began (s.node.lastApplied + 1)] }

theorem roundMoves_applyRound (callback : List Cmd → Cmd → Effect) {s : Appliers ν Cmd} {k : ℕ}
    (hk : s.appliers[k]? = some .ready) : RoundMoves s k (applyRound callback k s) := by
  have hsame : s.appliers.set k .ready = s.appliers := by
    obtain ⟨hlt, hval⟩ := List.getElem?_eq_some_iff.1 hk
    rw [← hval, List.set_getElem_self]
  rcases le_or_gt s.node.commitIndex s.node.lastApplied with hle | hlt
  · rw [applyRound, if_pos hle]
    exact .done hle
  · rw [applyRound, if_neg (not_le.2 hlt)]
    cases hentry : s.node.log[(s.node.lastApplied + 1).toNat]? with
    | none =>
        simp only [hentry]
        exact .outOfLog hlt hentry
    | some entry =>
        simp only [hentry]
        cases callback (s.node.applied.map Prod.snd) entry.command with
        | returns =>
            have := RoundMoves.through (k := k) .ready hlt hentry (fun _ => nofun)
            rwa [hsame] at this
        | raises => exact .through .gone hlt hentry fun _ => nofun
        | suspends => exact .suspended hlt hentry

/-- Where an applier that waits for a coroutine stands in a list with one changed. -/
theorem getElem?_set_awaiting {appliers : List Applier} {k j : ℕ} {next : Applier} {i : ℤ}
    (hnext : next ≠ .awaiting i) (h : (appliers.set k next)[j]? = some (.awaiting i)) :
    j ≠ k ∧ appliers[j]? = some (.awaiting i) := by
  rw [List.getElem?_set] at h
  split at h
  · split at h
    · exact absurd (Option.some.inj h) hnext
    · cases h
  · next hkj => exact ⟨Ne.symm hkj, h⟩

theorem awaiting_mem_set {appliers : List Applier} {k : ℕ} {next : Applier} {i : ℤ}
    (hnext : next ≠ .awaiting i) (h : .awaiting i ∈ appliers.set k next) :
    .awaiting i ∈ appliers := by
  rcases List.mem_or_eq_of_mem_set h with h | h
  · exact h
  · exact absurd h.symm hnext

theorem awaiting_mem_set_of_ready {appliers : List Applier} {k : ℕ} {next : Applier} {i : ℤ}
    (hk : appliers[k]? = some .ready) (h : .awaiting i ∈ appliers) :
    .awaiting i ∈ appliers.set k next := by
  obtain ⟨j, hj⟩ := List.mem_iff_getElem?.1 h
  have hne : k ≠ j := by
    rintro rfl
    rw [hk] at hj
    cases hj
  exact List.mem_of_getElem? (by rw [List.getElem?_set_ne hne]; exact hj)

section Steps

variable {callback : List Cmd → Cmd → Effect} {s s' : Appliers ν Cmd} {k : ℕ}

/-- Appliers that do not wait may come and go, and the node may change but for what was applied. -/
theorem AppliersInv.of_frame (h : AppliersInv s) (hhistory : s'.history = s.history)
    (hlast : s'.node.lastApplied = s.node.lastApplied)
    (happlied : s'.node.applied = s.node.applied)
    (hmem : ∀ i, .awaiting i ∈ s'.appliers ↔ .awaiting i ∈ s.appliers)
    (hone : ∀ (j : ℕ) (i : ℤ), s'.appliers[j]? = some (Applier.awaiting i) →
      s.appliers[j]? = some (Applier.awaiting i)) : AppliersInv s' where
  ge := hlast ▸ h.ge
  inOrder := by
    refine ⟨?_, ?_, hhistory ▸ h.inOrder.order⟩
    · rw [happlied, hlast]
      exact h.inOrder.calls
    · rw [hhistory, happlied]
      exact h.inOrder.events
  ended := fun i hi hle => by
    rw [hhistory, hmem]
    exact h.ended i hi (hlast ▸ hle)
  fresh := fun i hi => by
    rw [hhistory]
    exact h.fresh i (hlast ▸ hi)
  alone := fun i hi => by
    rw [hhistory, hlast]
    exact h.alone i ((hmem i).1 hi)
  one := fun j j' i i' hj hj' => h.one j j' i i' (hone j i hj) (hone j' i' hj')

/-- When no coroutine is awaited, every claimed command is through. -/
theorem AppliersInv.ended_of_alone (h : AppliersInv s) (halone : ∀ i, .awaiting i ∉ s.appliers)
    {i : ℤ} (hi : 0 ≤ i) (hle : i ≤ s.node.lastApplied) : .ended i ∈ s.history :=
  (h.ended i hi hle).resolve_right (halone i)

/-- Claiming the next index, when no coroutine is awaited, keeps the order. -/
theorem AppliesInOrder.claim (h : AppliersInv s) (halone : ∀ i, .awaiting i ∉ s.appliers)
    (command : Cmd) (hnode : s'.node = claimed s.node command) {events : List Event}
    (hhistory : s'.history = s.history ++ .began (s.node.lastApplied + 1) :: events)
    (hevents : ∀ e ∈ events, e.began? = none) : AppliesInOrder s' := by
  have hge := h.ge
  refine ⟨?_, ?_, ?_⟩
  · rw [hnode, claimed, List.map_append, h.inOrder.calls]
    exact (range_succ_toNat hge).symm
  · have hnone := List.filterMap_eq_nil_iff.2 hevents
    rw [hhistory, hnode, claimed, List.filterMap_append, h.inOrder.events, List.map_append]
    simp [hnone, Event.began?]
  · -- the command before the claimed one is through
    have hbegan : Ordered (s.history ++ [.began (s.node.lastApplied + 1)]) := by
      refine h.inOrder.order.snoc fun i hi hpos => ?_
      cases hi
      rw [Int.add_sub_cancel]
      exact h.ended_of_alone halone (by omega) le_rfl
    rw [hhistory, List.append_cons]
    exact hbegan.append hevents

/-- A round keeps the invariant when its claim is made alone. -/
theorem AppliersInv.round (h : AppliersInv s) (hk : s.appliers[k]? = some .ready)
    (hok : s.node.lastApplied < s.node.commitIndex →
      (∀ i, .awaiting i ∉ s.appliers) ∧ s.node.lastApplied + 1 < s.node.log.length)
    (hround : RoundMoves s k s') : AppliersInv s' := by
  have hge := h.ge
  cases hround with
  | done hle =>
      refine h.of_frame rfl rfl rfl (fun i => ⟨awaiting_mem_set nofun,
        awaiting_mem_set_of_ready hk⟩) fun j i hj => ?_
      have hne : Applier.gone ≠ .awaiting i := nofun
      exact (getElem?_set_awaiting hne hj).2
  | outOfLog hlt hentry =>
      have := (hok hlt).2
      rw [List.getElem?_eq_none_iff] at hentry
      omega
  | @through entry next hlt hentry hnext =>
      obtain ⟨halone, -⟩ := hok hlt
      have hnone : ∀ i, .awaiting i ∉ s.appliers.set k next := fun i hi =>
        halone i (awaiting_mem_set (hnext i) hi)
      refine ⟨?_, .claim h halone entry.command rfl rfl (by simp [Event.began?]), ?_, ?_,
        fun i hi => absurd hi (hnone i), fun j _ i _ hj _ =>
          absurd (List.mem_of_getElem? hj) (hnone i)⟩
      · show -1 ≤ s.node.lastApplied + 1
        omega
      · intro i hi hle
        rcases lt_or_eq_of_le (show i ≤ s.node.lastApplied + 1 from hle) with hlt | rfl
        · exact .inl (List.mem_append_left _ (h.ended_of_alone halone hi (by omega)))
        · exact .inl (by simp)
      · intro i hi
        have hlast : s.node.lastApplied + 1 < i := hi
        have := h.fresh i (by omega)
        simp only [List.mem_append, List.mem_cons, Event.ended.injEq, List.not_mem_nil, or_false,
          reduceCtorEq, false_or, not_or]
        exact ⟨this, hlast.ne'⟩
  | @suspended entry hlt hentry =>
      obtain ⟨halone, -⟩ := hok hlt
      have honly : ∀ (j : ℕ) (i : ℤ), (s.appliers.set k
          (Applier.awaiting (s.node.lastApplied + 1)))[j]? = some (Applier.awaiting i) →
          j = k ∧ i = s.node.lastApplied + 1 := by
        intro j i hj
        by_cases hi : i = s.node.lastApplied + 1
        · refine ⟨?_, hi⟩
          by_contra hjk
          rw [List.getElem?_set_ne (Ne.symm hjk)] at hj
          exact halone i (List.mem_of_getElem? hj)
        · have hne : Applier.awaiting (s.node.lastApplied + 1) ≠ .awaiting i := by
            simpa using Ne.symm hi
          exact absurd (List.mem_of_getElem? (getElem?_set_awaiting hne hj).2) (halone i)
      refine ⟨?_, .claim h halone entry.command rfl rfl (fun _ => nofun), ?_, ?_, ?_, ?_⟩
      · show -1 ≤ s.node.lastApplied + 1
        omega
      · intro i hi hle
        rcases lt_or_eq_of_le (show i ≤ s.node.lastApplied + 1 from hle) with hlt | rfl
        · exact .inl (List.mem_append_left _ (h.ended_of_alone halone hi (by omega)))
        · exact .inr (List.mem_set (List.getElem?_eq_some_iff.1 hk).1 _)
      · intro i hi
        have hlast : s.node.lastApplied + 1 < i := hi
        have := h.fresh i (by omega)
        simpa using this
      · intro i hi
        obtain ⟨j, hj⟩ := List.mem_iff_getElem?.1 hi
        obtain ⟨-, rfl⟩ := honly j i hj
        exact ⟨rfl, by omega, by simpa using h.fresh _ (by omega)⟩
      · intro j j' i i' hj hj'
        exact (honly j i hj).1.trans (honly j' i' hj').1.symm

/-- A coroutine that is awaited is through. -/
theorem AppliersInv.resume (h : AppliersInv s) {i : ℤ} {next : Applier}
    (hk : s.appliers[k]? = some (Applier.awaiting i)) (hnext : ∀ i, next ≠ .awaiting i) :
    AppliersInv { s with
      appliers := s.appliers.set k next
      history := s.history ++ [.ended i] } := by
  have hlast := (h.alone i (List.mem_of_getElem? hk)).1
  -- it was the only one
  have hnone : ∀ j, .awaiting j ∉ s.appliers.set k next := by
    intro j hj
    obtain ⟨k', hk'⟩ := List.mem_iff_getElem?.1 hj
    obtain ⟨hne, hk'⟩ := getElem?_set_awaiting (hnext j) hk'
    exact hne (h.one _ _ _ _ hk' hk)
  refine ⟨h.ge, ⟨h.inOrder.calls, ?_, ?_⟩, ?_, ?_, fun j hj => absurd hj (hnone j),
    fun j _ i _ hj _ => absurd (List.mem_of_getElem? hj) (hnone i)⟩
  · rw [List.filterMap_append, h.inOrder.events]
    exact List.append_nil _
  · exact h.inOrder.order.append fun e he => by rw [List.mem_singleton.1 he]; rfl
  · intro j hj hle
    refine .inl ?_
    rcases h.ended j hj hle with hended | hawaiting
    · exact List.mem_append_left _ hended
    · rw [(h.alone j hawaiting).1, hlast]
      exact List.mem_append_right _ (List.mem_singleton_self _)
  · intro j hj
    have hfresh := h.fresh j hj
    have hlt : s.node.lastApplied < j := hj
    have hne : j ≠ i := by omega
    simpa [hne] using hfresh

/-- Callers leave to `_apply_committed` what it does. -/
theorem prologue_frame {node node' : RaftNode ν Cmd} {caller : Caller ν Cmd}
    (h : caller.prologue node = some node') :
    node'.lastApplied = node.lastApplied ∧ node'.applied = node.applied := by
  cases caller with
  | handleAppendEntries data =>
      simp only [Caller.prologue, Option.ite_none_right_eq_some] at h
      obtain ⟨-, h⟩ := h
      cases h
      exact ⟨rfl, rfl⟩
  | appendEntry entryIndex =>
      cases h
      exact ⟨rfl, rfl⟩
  | advanceCommitIndex peers =>
      simp only [Caller.prologue, raiseCommitIndex] at h
      split at h
      · cases h
      · split at h
        · split at h
          · cases h
          · split at h <;> cases h <;> exact ⟨rfl, rfl⟩
        · cases h
          exact ⟨rfl, rfl⟩

/-- **What a step keeps**, when its claim is made alone. -/
theorem AppliersInv.step {a : ApplierAction ν Cmd} (h : AppliersInv s) (hok : ClaimsAlone s a)
    (hstep : applierStep callback s a = some s') : AppliersInv s' := by
  cases a with
  | call caller =>
      obtain ⟨node, hnode, rfl⟩ := Option.map_eq_some_iff.1 hstep
      obtain ⟨hlast, happlied⟩ := prologue_frame hnode
      refine h.of_frame rfl hlast happlied (fun i => ?_) fun j i hj => ?_
      · simp
      · rcases Nat.lt_or_ge j s.appliers.length with hlt | hge
        · rwa [List.getElem?_append_left hlt] at hj
        · rw [List.getElem?_append_right hge] at hj
          cases List.mem_singleton.1 (List.mem_of_getElem? hj)
  | other node =>
      cases hstep
      exact h.of_frame rfl rfl rfl (fun _ => Iff.rfl) fun _ _ hj => hj
  | round k =>
      simp only [applierStep] at hstep
      split at hstep
      · next hk =>
          cases hstep
          exact h.round hk (hok hk) (roundMoves_applyRound callback hk)
      · cases hstep
  | resume k returns =>
      simp only [applierStep] at hstep
      split at hstep
      · next i hk =>
          cases hstep
          exact h.resume hk fun j => by split <;> nofun
      · cases hstep

theorem appliersInv_run (h : Run (applierStep callback) ClaimsAlone idle s) : AppliersInv s :=
  h.invariant (fun _ _ _ hI hok hstep => hI.step hok hstep) appliersInv_idle

/-- The calls of a step are read from the log. -/
theorem readsLog_step {a : ApplierAction ν Cmd} (hstep : applierStep callback s a = some s') :
    ReadsLog s s' := by
  have hsame : s'.node.applied = s.node.applied → ReadsLog s s' := by
    intro happlied call hcall
    rw [happlied, List.drop_length] at hcall
    cases hcall
  cases a with
  | call caller =>
      obtain ⟨node, hnode, rfl⟩ := Option.map_eq_some_iff.1 hstep
      exact hsame (prologue_frame hnode).2
  | other node =>
      cases hstep
      exact hsame rfl
  | round k =>
      simp only [applierStep] at hstep
      split at hstep
      · next hk =>
          cases hstep
          have hround := roundMoves_applyRound callback hk
          generalize applyRound callback k s = s' at *
          have hclaim : ∀ {entry : LogEntry Cmd},
              s.node.log[(s.node.lastApplied + 1).toNat]? = some entry →
              ∀ call ∈ (claimed s.node entry.command).applied.drop s.node.applied.length,
                ∃ found ∈ s.node.log[call.1.toNat]?, found.command = call.2 := by
            intro entry hentry call hcall
            rw [claimed, List.drop_left, List.mem_singleton] at hcall
            rw [hcall]
            exact ⟨entry, hentry, rfl⟩
          cases hround with
          | done hle => exact hsame rfl
          | outOfLog hlt hentry => exact hsame rfl
          | through next hlt hentry hnext => exact hclaim hentry
          | suspended hlt hentry => exact hclaim hentry
      · cases hstep
  | resume k returns =>
      simp only [applierStep] at hstep
      split at hstep
      · cases hstep
        exact hsame rfl
      · cases hstep

/-- A claim that is not made alone breaks the order. -/
theorem AppliersInv.claimsAlone {a : ApplierAction ν Cmd} (h : AppliersInv s)
    (hstep : applierStep callback s a = some s') (hs' : AppliesInOrder s') : ClaimsAlone s a := by
  cases a with
  | call | other | resume => trivial
  | round k =>
      intro hk hlt
      have hge := h.ge
      simp only [applierStep, hk, Option.some.injEq] at hstep
      have hround := roundMoves_applyRound callback hk
      rw [hstep] at hround
      -- the command before the claimed one is through, so it is not awaited
      have halone : ∀ rest, s'.history = s.history ++ .began (s.node.lastApplied + 1) :: rest →
          ∀ i, .awaiting i ∉ s.appliers := by
        intro rest hhistory i hi
        obtain ⟨rfl, hnonneg, hnot⟩ := h.alone i hi
        have horder := hs'.order
        rw [hhistory] at horder
        have hended := horder.of_snoc (by omega)
        rw [Int.add_sub_cancel] at hended
        exact hnot hended
      cases hround with
      | done hle => omega
      | outOfLog hlt hentry =>
          have hcalls := hs'.calls
          have hbefore := h.inOrder.calls
          simp only at hcalls
          rw [range_succ_toNat hge, hbefore] at hcalls
          have := congrArg List.length hcalls
          simp at this
      | through next hlt hentry hnext =>
          exact ⟨halone _ rfl, by have := (List.getElem?_eq_some_iff.1 hentry).1; omega⟩
      | suspended hlt hentry =>
          exact ⟨halone [] rfl, by have := (List.getElem?_eq_some_iff.1 hentry).1; omega⟩

/-- **Commands take effect in log order, exactly once, as long as claims are made alone.**  In a run
in which every claim was made alone, a step keeps the order exactly when its claim is made alone. -/
theorem appliesInOrder_iff {a : ApplierAction ν Cmd}
    (h : Run (applierStep callback) ClaimsAlone idle s)
    (hstep : applierStep callback s a = some s') :
    (AppliesInOrder s' ∧ ReadsLog s s') ↔ ClaimsAlone s a :=
  ⟨fun hs' => (appliersInv_run h).claimsAlone hstep hs'.1,
    fun hok => ⟨((appliersInv_run h).step hok hstep).inOrder, readsLog_step hstep⟩⟩

end Steps

/-- A message with two committed entries. -/
def twoCommitted : AppendEntries ℕ ℕ := ⟨1, 0, -1, 0, [⟨1, 7⟩, ⟨1, 8⟩], 1⟩

/-- The first of its commands is claimed alone. -/
theorem appliesInOrder_twoCommitted :
    ∃ s s' : Appliers ℕ ℕ, Run (applierStep fun _ _ => .suspends) ClaimsAlone idle s ∧
      applierStep (fun _ _ => .suspends) s (.round 0) = some s' ∧ s'.history = [.began 0] ∧
      AppliesInOrder s' := by
  have hrun : Run (applierStep fun _ _ => .suspends) ClaimsAlone idle
      { node := storeEntries (acceptLeader (init fun _ _ => true) 1 0) twoCommitted
        appliers := [.ready]
        history := [] } :=
    .single (a := .call (.handleAppendEntries twoCommitted)) trivial rfl
  refine ⟨_, _, hrun, rfl, rfl,
    ((appliesInOrder_iff (a := .round 0) hrun rfl).2 fun _ _ => ⟨fun i => ?_, ?_⟩).1⟩
  · simp
  · decide

/-- **The order is not always kept.**  The follower handles the message twice.  The applier of the
first call waits for the coroutine of the first command when that of the second call claims the
second one. -/
theorem appliesInOrder_fails :
    ∃ s : Appliers ℕ ℕ, Run (applierStep fun _ _ => .suspends) anyAction idle s ∧
      ¬ AppliesInOrder s := by
  obtain ⟨s, hs, hhistory⟩ := Run.exists_of_exec (applierStep fun _ _ => .suspends) anyAction
    (idle : Appliers ℕ ℕ) [.call (.handleAppendEntries twoCommitted), .round 0,
      .call (.handleAppendEntries twoCommitted), .round 1]
    (fun s => s.history = [.began 0, .began 1]) (by decide)
  refine ⟨s, hs, fun h => ?_⟩
  have horder := h.order
  rw [hhistory] at horder
  exact absurd (horder 1 1 rfl (by decide)) (by decide)

end Raft
