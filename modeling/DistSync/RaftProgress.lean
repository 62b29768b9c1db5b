/-
**Acknowledged progress within one leadership.**

Several `_replicate_to_peer` calls to one peer overlap: those of the heartbeat loop and those of
the calls of `append_entry`.  Each keeps the `next_index` and the entries it started with, and
overwrites `match_index` with what they amount to when its reply arrives.  So `match_index` is a
register that is overwritten by every successful reply, and an old reply that arrives last takes
back what a newer one has written (`Raft.progressKept_fails`).

A register that is overwritten never goes down exactly when the values come in order, and then it
ends with the greatest of them.  For `match_index` this gives the exact condition: the replies are
handled in the order of the indices that their calls cover, and a reply to a call that was made
before the leadership does not reach beyond those of the leadership (`Raft.progressKept_iff`).

Main definitions:

* `Register.readings` — the values of a register that is overwritten;
* `Raft.Reign` — one leadership of a node, from the election that it wins;
* `Raft.ProgressKept` — `match_index` never goes down, and ends with the highest index acknowledged;
* `Raft.InOrder` — the replies are handled in the order of what they cover.

Main results:

* `Register.pairwise_readings`, `Register.isGreatest_final` — **a register and its writes**;
* `Raft.progressKept_iff`, `Raft.progressKept_fails`.
-/

import DistSync.RaftMatchIndex
import Mathlib.Data.List.ReduceOption
import Mathlib.Order.Bounds.Basic

set_option relaxedAutoImplicit false
set_option autoImplicit false

/-! ### A register that is overwritten -/

namespace Register

variable {α : Type*}

/-- The values of a register, from the first to the last, under a sequence of writes. -/
def readings : α → List (Option α) → List α
  | x, [] => [x]
  | x, write :: writes => x :: readings (write.getD x) writes

/-- The last value of a register. -/
def final (x : α) (writes : List (Option α)) : α := writes.foldl (fun x write => write.getD x) x

theorem final_cons (x : α) (write : Option α) (writes : List (Option α)) :
    final x (write :: writes) = final (write.getD x) writes := rfl

theorem mem_readings {x y : α} {writes : List (Option α)} :
    y ∈ readings x writes ↔ y ∈ x :: writes.reduceOption := by
  induction writes generalizing x with
  | nil => rfl
  | cons write writes ih =>
      cases write with
      | none => simp [readings, ih]
      | some w => simp [readings, ih]

/-- **A register never goes down exactly when its first value and the writes come in order.** -/
theorem pairwise_readings [Preorder α] {x : α} {writes : List (Option α)} :
    (readings x writes).Pairwise (· ≤ ·) ↔ (x :: writes.reduceOption).Pairwise (· ≤ ·) := by
  induction writes generalizing x with
  | nil => rfl
  | cons write writes ih =>
      cases write with
      | none =>
          -- the value is read once more
          rw [readings, Option.getD_none, List.pairwise_cons, ih, List.reduceOption_cons_of_none]
          refine and_iff_right_of_imp fun hsorted y hy => ?_
          rcases List.mem_cons.1 (mem_readings.1 hy) with rfl | hy
          · exact le_rfl
          · exact (List.pairwise_cons.1 hsorted).1 y hy
      | some w =>
          rw [readings, Option.getD_some, List.pairwise_cons, ih, List.reduceOption_cons_of_some,
            List.pairwise_cons (a := x)]
          exact and_congr_left fun _ => forall_congr' fun y => by rw [mem_readings]

theorem final_mem (x : α) (writes : List (Option α)) :
    final x writes ∈ x :: writes.reduceOption := by
  induction writes generalizing x with
  | nil => exact List.mem_singleton_self x
  | cons write writes ih =>
      cases write with
      | none => exact ih x
      | some w => exact List.mem_cons_of_mem x (ih w)

/-- **When the writes come in order, the register ends with the greatest value.** -/
theorem isGreatest_final [Preorder α] {x : α} {writes : List (Option α)}
    (h : (x :: writes.reduceOption).Pairwise (· ≤ ·)) :
    IsGreatest {y | y ∈ x :: writes.reduceOption} (final x writes) := by
  refine ⟨final_mem x writes, fun y hy => ?_⟩
  induction writes generalizing x y with
  | nil => exact (List.mem_singleton.1 hy).le
  | cons write writes ih =>
      cases write with
      | none => exact ih h y hy
      | some w =>
          rw [List.reduceOption_cons_of_some] at h
          obtain ⟨hx, hrest⟩ := List.pairwise_cons.1 h
          rcases List.mem_cons.1 hy with rfl | hy
          · exact hx _ (final_mem w writes)
          · exact ih hrest y hy

end Register

namespace Raft

open Runs Register

variable {ν Cmd : Type} [DecidableEq ν] {M : Membership ν} {s s' : Cluster ν Cmd}
  {callback : ν → ApplyCallback Cmd} {n peer : ν}

/-! ### One leadership -/

/-- The node leads after the step, and is in the same term as before. -/
def StaysLeader (M : Membership ν) (n : ν) (s : Cluster ν Cmd) (a : Action ν Cmd) : Prop :=
  ∀ s' ∈ step M s a, (s'.nodes n).raft.state = .leader ∧
    (s'.nodes n).raft.currentTerm = (s.nodes n).raft.currentTerm

instance decidableStaysLeader (M : Membership ν) (n : ν) (s : Cluster ν Cmd) (a : Action ν Cmd) :
    Decidable (StaysLeader M n s a) := inferInstanceAs (Decidable (∀ _ ∈ _, _ ∧ _))

/-- **One uninterrupted leadership**: in a run of the cluster `n` wins an election, which leads to
`s`, and it stays leader of its term through the given actions, which lead to `s'`. -/
structure Reign (M : Membership ν) (callback : ν → ApplyCallback Cmd) (n : ν) (s : Cluster ν Cmd)
    (as : List (Action ν Cmd)) (s' : Cluster ν Cmd) : Prop where
  begins : ∃ s₀ replies, Run (step M) anyAction (initial callback) s₀ ∧
    (s₀.nodes n).raft.state ≠ .leader ∧ step M s₀ (.electionResult n replies) = some s
  leads : (s.nodes n).raft.state = .leader
  lasts : exec (step M) (StaysLeader M n) s as = some s'

/-- The values of `match_index` in the states of a run. -/
def matchIndexes (M : Membership ν) (n peer : ν) : Cluster ν Cmd → List (Action ν Cmd) → List ℤ
  | s, [] => [(s.nodes n).raft.matchIndex peer]
  | s, a :: as => (s.nodes n).raft.matchIndex peer ::
      match step M s a with
      | none => []
      | some s' => matchIndexes M n peer s' as

/-- What the steps of a run acknowledge. -/
def acknowledgements (M : Membership ν) (n peer : ν) :
    Cluster ν Cmd → List (Action ν Cmd) → List (Option (ℕ × AppendEntries ν Cmd))
  | _, [] => []
  | s, a :: as => acknowledgement s n peer a ::
      match step M s a with
      | none => []
      | some s' => acknowledgements M n peer s' as

/-- **Acknowledged progress is not forgotten**: `match_index` never goes down, and in the end it is
the highest index that the peer has acknowledged in a call of this leadership. -/
def ProgressKept (M : Membership ν) (n peer : ν) (s : Cluster ν Cmd) (as : List (Action ν Cmd))
    (s' : Cluster ν Cmd) : Prop :=
  (matchIndexes M n peer s as).Pairwise (· ≤ ·) ∧
    -- a call is named by its position, and those of the leadership were made after `s`
    IsGreatest {i : ℤ | i = -1 ∨ ∃ ack ∈ (acknowledgements M n peer s as).reduceOption,
      s.appendCalls.length ≤ ack.1 ∧ ack.2.lastIndex = i} ((s'.nodes n).raft.matchIndex peer)

/-- **The successful replies are handled in the order of the indices that their calls cover**, and
one to an older call covers no more than those of this leadership. -/
def InOrder (M : Membership ν) (n peer : ν) (s : Cluster ν Cmd) (as : List (Action ν Cmd)) : Prop :=
  ((acknowledgements M n peer s as).reduceOption.map (·.2.lastIndex)).Pairwise (· ≤ ·) ∧
    ∀ ack ∈ (acknowledgements M n peer s as).reduceOption, ack.1 < s.appendCalls.length →
      ack.2.lastIndex ≤ -1 ∨ ∃ ack' ∈ (acknowledgements M n peer s as).reduceOption,
        s.appendCalls.length ≤ ack'.1 ∧ ack.2.lastIndex ≤ ack'.2.lastIndex

instance decidableInOrder (s : Cluster ν Cmd) (as : List (Action ν Cmd)) :
    Decidable (InOrder M n peer s as) := inferInstanceAs (Decidable (_ ∧ ∀ _ ∈ _, _))

/-! ### `match_index` as a register -/

/-- A leader does not start an election. -/
theorem Moves.election_none {a : Action ν Cmd} (h : Moves M s a s')
    (hleader : (s.nodes n).raft.state = .leader) (hidle : (s.nodes n).election = none) :
    (s'.nodes n).election = none := by
  have key : ∀ {m : ν} {p : Process ν Cmd},
      ((s.nodes m).raft.state = .leader → (s.nodes m).election = none → p.election = none) →
      ((s.set m p).nodes n).election = none := fun hp =>
    Cluster.set_forall (P := fun m p => (s.nodes m).raft.state = .leader →
      (s.nodes m).election = none → p.election = none) (fun _ _ hidle => hidle) hp n hleader hidle
  cases h
  case electionTimeout m hn hstate _ => exact key fun hleader _ => absurd hleader hstate
  case electionWon => exact key fun _ _ => rfl
  case electionLost => exact key fun _ _ => rfl
  all_goals exact key fun _ hidle => hidle

/-- What is kept while the node leads. -/
structure Reigns (p : Process ν Cmd) : Prop where
  leads : p.raft.state = .leader
  idle : p.election = none
  wait : TasksWait p

/-- **One step of a leadership overwrites `match_index` with what it acknowledges.** -/
theorem Reigns.step {a : Action ν Cmd} (hI : Reigns (s.nodes n)) (h : Moves M s a s')
    (hleader : (s'.nodes n).raft.state = .leader) :
    Reigns (s'.nodes n) ∧ (s'.nodes n).raft.matchIndex peer =
      ((acknowledgement s n peer a).map (·.2.lastIndex)).getD
        ((s.nodes n).raft.matchIndex peer) := by
  refine ⟨⟨hleader, h.election_none hI.leads hI.idle, hI.wait.step h⟩, ?_⟩
  rcases h.matchIndex hI.wait with ⟨-, -, hpending, -⟩ | hkeeps
  · rw [hI.idle] at hpending
    cases hpending
  · obtain ⟨-, -, -, hindex⟩ := hkeeps hleader
    exact congrFun hindex peer

/-- A leadership goes on after its first step. -/
theorem Reigns.of_exec_cons {a : Action ν Cmd} {as : List (Action ν Cmd)}
    (hI : Reigns (s.nodes n)) (h : exec (Raft.step M) (StaysLeader M n) s (a :: as) = some s') :
    ∃ s₁, Raft.step M s a = some s₁ ∧ exec (Raft.step M) (StaysLeader M n) s₁ as = some s' ∧
      Reigns (s₁.nodes n) ∧ (s₁.nodes n).raft.matchIndex peer =
        ((acknowledgement s n peer a).map (·.2.lastIndex)).getD
          ((s.nodes n).raft.matchIndex peer) := by
  obtain ⟨hstays, s₁, hstep, hrest⟩ := Run.exec_cons.1 h
  exact ⟨s₁, hstep, hrest, hI.step (moves_of_step hstep) (hstays s₁ hstep).1⟩

/-- **A leadership is a sequence of writes to `match_index`.** -/
theorem readings_of_reigns {as : List (Action ν Cmd)} (hI : Reigns (s.nodes n))
    (h : exec (Raft.step M) (StaysLeader M n) s as = some s') :
    matchIndexes M n peer s as = readings ((s.nodes n).raft.matchIndex peer)
        ((acknowledgements M n peer s as).map (Option.map (·.2.lastIndex))) ∧
      (s'.nodes n).raft.matchIndex peer = final ((s.nodes n).raft.matchIndex peer)
        ((acknowledgements M n peer s as).map (Option.map (·.2.lastIndex))) := by
  induction as generalizing s with
  | nil =>
      obtain rfl := Option.some.inj h
      exact ⟨rfl, rfl⟩
  | cons a as ih =>
      obtain ⟨s₁, hstep, hrest, hI₁, hindex⟩ := @Reigns.of_exec_cons _ _ _ M s s' n peer a as hI h
      obtain ⟨hreadings, hfinal⟩ := ih hI₁ hrest
      rw [matchIndexes, acknowledgements, hstep, List.map_cons, readings, final_cons, ← hindex]
      exact ⟨congrArg _ hreadings, hfinal⟩

/-- Nothing below -1 is acknowledged. -/
theorem le_lastIndex_of_acknowledgement {a : Action ν Cmd} {ack : ℕ × AppendEntries ν Cmd}
    (hwait : TasksWait (s.nodes n)) (h : acknowledgement s n peer a = some ack) :
    -1 ≤ ack.2.lastIndex := by
  obtain ⟨k, reply, owner, next, -, -, htask⟩ := acknowledgement_eq_some h
  have hprev := (hwait _ (List.mem_of_getElem? htask) ack.1 next ack.2 rfl).1
  rw [AppendEntries.lastIndex, hprev]
  omega

theorem le_lastIndex_of_mem {as : List (Action ν Cmd)} (hI : Reigns (s.nodes n))
    (h : exec (Raft.step M) (StaysLeader M n) s as = some s') :
    ∀ ack ∈ (acknowledgements M n peer s as).reduceOption, -1 ≤ ack.2.lastIndex := by
  induction as generalizing s with
  | nil => exact fun _ hack => nomatch hack
  | cons a as ih =>
      obtain ⟨s₁, hstep, hrest, hI₁, -⟩ := @Reigns.of_exec_cons _ _ _ M s s' n peer a as hI h
      intro ack hack
      rw [List.reduceOption_mem_iff, acknowledgements, hstep] at hack
      rcases List.mem_cons.1 hack with hack | hack
      · exact le_lastIndex_of_acknowledgement hI.wait hack.symm
      · exact ih hI₁ hrest ack (List.reduceOption_mem_iff.2 hack)

/-- A node that has just won an election has reset `match_index`. -/
theorem Reign.reigns {as : List (Action ν Cmd)} (h : Reign M callback n s as s')
    (hpeer : peer ∈ M.peers n) :
    Reigns (s.nodes n) ∧ (s.nodes n).raft.matchIndex peer = -1 := by
  obtain ⟨s₀, replies, hrun, hbefore, hstep⟩ := h.begins
  have hmoves := moves_of_step hstep
  have hwait := tasksWait_run hrun n
  rcases hmoves.matchIndex hwait with ⟨-, -, -, hwon⟩ | hkeeps
  · refine ⟨⟨h.leads, by rw [hwon]; rfl, hwait.step hmoves⟩, ?_⟩
    rw [hwon]
    simp only [Process.won, becomeLeader, if_pos hpeer]
  · exact absurd (hkeeps h.leads).1 hbefore

/-- **Acknowledged progress is kept exactly when the replies are handled in order.** -/
theorem progressKept_iff {as : List (Action ν Cmd)} (h : Reign M callback n s as s')
    (hpeer : peer ∈ M.peers n) : ProgressKept M n peer s as s' ↔ InOrder M n peer s as := by
  obtain ⟨hI, hreset⟩ := h.reigns hpeer
  obtain ⟨hreadings, hfinal⟩ := @readings_of_reigns _ _ _ M s s' n peer as hI h.lasts
  have hge := @le_lastIndex_of_mem _ _ _ M s s' n peer as hI h.lasts
  rw [hreset] at hreadings hfinal
  set acks := (acknowledgements M n peer s as).reduceOption with hacks
  have hwrites : ((acknowledgements M n peer s as).map (Option.map (·.2.lastIndex))).reduceOption =
      acks.map (·.2.lastIndex) := List.reduceOption_map
  have hmem : ∀ ack ∈ acks, ack.2.lastIndex ∈ -1 :: acks.map (·.2.lastIndex) := fun ack hack =>
    List.mem_cons_of_mem _ (List.mem_map_of_mem hack)
  -- the register starts with -1, below everything that is acknowledged
  have hcons : (-1 :: acks.map (·.2.lastIndex)).Pairwise (· ≤ ·) ↔
      (acks.map (·.2.lastIndex)).Pairwise (· ≤ ·) := by
    rw [List.pairwise_cons]
    refine and_iff_right fun i hi => ?_
    obtain ⟨ack, hack, rfl⟩ := List.mem_map.1 hi
    exact hge ack hack
  rw [ProgressKept, InOrder, hreadings, pairwise_readings, hwrites, hcons, ← hacks]
  refine and_congr_right fun hsorted => ?_
  have hgreatest := isGreatest_final (hwrites.symm ▸ hcons.2 hsorted)
  rw [hwrites, ← hfinal] at hgreatest
  constructor
  · intro hkept ack hack _
    have hle := hgreatest.2 (hmem ack hack)
    rcases hkept.1 with hnone | ⟨ack', hack', hcall, heq⟩
    · exact .inl (hle.trans hnone.le)
    · exact .inr ⟨ack', hack', hcall, hle.trans heq.ge⟩
  · intro holder
    constructor
    · rcases List.mem_cons.1 hgreatest.1 with hnone | hlast
      · exact .inl hnone
      · obtain ⟨ack, hack, heq⟩ := List.mem_map.1 hlast
        rcases lt_or_ge ack.1 s.appendCalls.length with hcall | hcall
        · -- the last write was of an older call, and repeats one of this leadership
          rcases holder ack hack hcall with hnone | ⟨ack', hack', hcall', hle⟩
          · exact .inl (le_antisymm (heq.ge.trans hnone) (hgreatest.2 (List.mem_cons_self ..)))
          · exact .inr ⟨ack', hack', hcall',
              le_antisymm (hgreatest.2 (hmem ack' hack')) (heq.ge.trans hle)⟩
        · exact .inr ⟨ack, hack, hcall, heq⟩
    · rintro i (rfl | ⟨ack, hack, -, rfl⟩)
      · exact hgreatest.2 (List.mem_cons_self ..)
      · exact hgreatest.2 (hmem ack hack)

/-! ### A heartbeat that is answered last -/

/-- Node 0 has the vote of node 1 in term 1. -/
def oneVote : List (Action (Fin 3) ℕ) := [.electionTimeout 0, .requestVote 0 1]

/-- As leader it sends a heartbeat to node 1 and then an entry. -/
def heartbeatThenEntry : List (Action (Fin 3) ℕ) :=
  [.heartbeat 0, .replicateStart 0 0, .appendEntry 0 7, .replicateStart 0 2]

/-- The answers come in the order of the calls. -/
def answeredInOrder : List (Action (Fin 3) ℕ) :=
  heartbeatThenEntry ++ [.appendEntries 0, .replicateEnd 0 0 (some ⟨1, true⟩), .appendEntries 1,
    .replicateEnd 0 2 (some ⟨1, true⟩)]

/-- The heartbeat is overtaken by the entry. -/
def overtaken : List (Action (Fin 3) ℕ) :=
  heartbeatThenEntry ++ [.appendEntries 1, .replicateEnd 0 2 (some ⟨1, true⟩), .appendEntries 0,
    .replicateEnd 0 0 (some ⟨1, true⟩)]

/-- A leadership of node 0, from its evaluation. -/
theorem exists_reign (as : List (Action (Fin 3) ℕ))
    (P : Cluster (Fin 3) ℕ → Cluster (Fin 3) ℕ → Prop) [∀ s s', Decidable (P s s')]
    (h : ((exec (step trio) anyAction (initial returning) oneVote).any fun s₀ =>
      decide ((s₀.nodes 0).raft.state ≠ .leader) &&
        (step trio s₀ (.electionResult 0 [(1, ⟨1, true⟩)])).any fun s =>
          decide ((s.nodes 0).raft.state = .leader) &&
            (exec (step trio) (StaysLeader trio 0) s as).any fun s' => decide (P s s')) = true) :
    ∃ s s', Reign trio returning 0 s as s' ∧ P s s' := by
  obtain ⟨s₀, hs₀, h⟩ := (Option.any_eq_true _ _).1 h
  obtain ⟨hbefore, h⟩ := (Bool.and_eq_true _ _).mp h
  obtain ⟨s, hs, h⟩ := (Option.any_eq_true _ _).1 h
  obtain ⟨hleads, h⟩ := (Bool.and_eq_true _ _).mp h
  obtain ⟨s', hs', hP⟩ := (Option.any_eq_true _ _).1 h
  exact ⟨s, s', ⟨⟨s₀, _, Run.of_exec _ hs₀, of_decide_eq_true hbefore, hs⟩,
    of_decide_eq_true hleads, hs'⟩, of_decide_eq_true hP⟩

/-- When the heartbeat is answered last, `match_index` falls back. -/
theorem progressKept_fails :
    ¬ ∀ (s s' : Cluster (Fin 3) ℕ) (as : List (Action (Fin 3) ℕ)) (n peer : Fin 3),
      Reign trio returning n s as s' → peer ∈ trio.peers n → ProgressKept trio n peer s as s' := by
  intro hall
  obtain ⟨s, s', hreign, hvalues⟩ := exists_reign overtaken
    (fun s _ => matchIndexes trio 0 1 s overtaken = [-1, -1, -1, -1, -1, -1, 0, 0, -1]) (by decide)
  have hkept := (hall s s' overtaken 0 1 hreign (by decide)).1
  rw [hvalues] at hkept
  revert hkept
  decide

/-- In order, `match_index` ends with the entry. -/
theorem progressKept_answeredInOrder :
    ∃ s s' : Cluster (Fin 3) ℕ, Reign trio returning 0 s answeredInOrder s' ∧
      (s'.nodes 0).raft.matchIndex 1 = 0 ∧ ProgressKept trio 0 1 s answeredInOrder s' := by
  obtain ⟨s, s', hreign, hindex, horder⟩ := exists_reign answeredInOrder
    (fun s s' => (s'.nodes 0).raft.matchIndex 1 = 0 ∧ InOrder trio 0 1 s answeredInOrder)
    (by decide)
  exact ⟨s, s', hreign, hindex, (progressKept_iff hreign (by decide)).2 horder⟩

end Raft
