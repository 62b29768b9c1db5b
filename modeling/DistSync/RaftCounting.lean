/-
**What a leader counts.**

`_advance_commit_index` sorts the values of `match_index`, with its own last index among them,
downwards and looks at one of them only, the one at position `majority() - 1`.  It is the greatest
index that a majority has, and because terms do not go down along a log, no smaller index can be of
the current term when that one is not: the single candidate is enough
(`Raft.advanceCommitIndex_greatest`).

`_replicate_log` counts the results of its tasks, and comes by them in two ways: from `gather` when
all tasks have finished, and from the tasks themselves after a timeout.  A cancelled task is in the
first list, as an exception that is not an `Exception` and counts; a task that raised raises again
in the second way.

Main definitions:

* `Raft.Committable` — an index that the commit rule of Raft lets a leader commit;
* `Raft.CollectPath`, `Raft.replicateLogOn` — the two ways through `_replicate_log`;
* `Raft.CountsRight` — the condition under which they agree with the rule.

Main results:

* `Raft.lt_countP_iff` — an element of a sorted list, and how many are at least a bound;
* `Raft.advanceCommitIndex_greatest` — **`_advance_commit_index` finds the greatest index**;
* `Raft.replicateLog_eq` — the link to the cluster: its `_replicate_log` counts on these two ways;
* `Raft.replicateLogOn_iff` — **when the count of the successes is right**.
-/

import DistSync.RaftCommit
import Mathlib.Order.Bounds.Basic

set_option relaxedAutoImplicit false
set_option autoImplicit false

namespace Raft

variable {ν Cmd : Type}

/-! ### Counting in a sorted list -/

/-- In a list in descending order, more than `i` elements are at least `n` exactly when the one at
position `i` is. -/
theorem lt_countP_iff {l : List ℤ} (hl : l.Pairwise (· ≥ ·)) {i : ℕ} {m n : ℤ}
    (hi : l[i]? = some m) : i < l.countP (n ≤ ·) ↔ n ≤ m := by
  constructor
  · intro hlt
    by_contra hmn
    obtain ⟨hlen, hm⟩ := List.getElem?_eq_some_iff.1 hi
    -- from position `i` on all elements are below the bound
    have hdrop : (l.drop i).countP (n ≤ ·) = 0 := by
      refine List.countP_eq_zero.2 fun x hx => ?_
      obtain ⟨j, hj, rfl⟩ := List.mem_drop_iff_getElem.1 hx
      have hij : i + j < l.length := by omega
      have hle : l[i + j] ≤ m :=
        hm ▸ hl.rel_get_of_le (a := ⟨i, hlen⟩) (b := ⟨i + j, hij⟩) (Nat.le_add_right i j)
      simp only [decide_eq_true_eq]
      omega
    have htake : (l.take i).countP (n ≤ ·) ≤ i :=
      List.countP_le_length.trans (List.length_take_le i l)
    rw [← List.take_append_drop i l, List.countP_append, hdrop] at hlt
    omega
  · intro hnm
    have hmono : l.countP (m ≤ ·) ≤ l.countP (n ≤ ·) := by
      refine List.countP_mono_left fun x _ hx => ?_
      simp only [decide_eq_true_eq] at hx ⊢
      exact hnm.trans hx
    exact (le_countP_of_sorted hl hi).trans hmono

/-! ### The commit rule -/

/-- The number of nodes that have index `n`: the peers, by `match_index`, and the leader. -/
def copies (peers : List ν) (node : RaftNode ν Cmd) (n : ℤ) : ℕ :=
  (peers.map node.matchIndex ++ [(node.log.length : ℤ) - 1]).countP (n ≤ ·)

/-- **The commit rule**: a leader may commit an index beyond `commit_index` that a majority has and
whose entry is of its current term. -/
def Committable (peers : List ν) (node : RaftNode ν Cmd) (n : ℕ) : Prop :=
  node.commitIndex < n ∧ majority peers ≤ copies peers node n ∧
    ∃ entry ∈ node.log[n]?, entry.term = node.currentTerm

/-- The candidate of `_advance_commit_index` is there, and an index is at most the candidate exactly
when a majority has it. -/
theorem exists_candidate (peers : List ν) (node : RaftNode ν Cmd) :
    ∃ m : ℤ, ((peers.map node.matchIndex ++
        [(node.log.length : ℤ) - 1]).insertionSort (· ≥ ·))[majority peers - 1]? = some m ∧
      ∀ n : ℤ, majority peers ≤ copies peers node n ↔ n ≤ m := by
  have hlen : majority peers - 1 < ((peers.map node.matchIndex ++
      [(node.log.length : ℤ) - 1]).insertionSort (· ≥ ·)).length := by
    rw [List.length_insertionSort, List.length_append, List.length_map, List.length_singleton,
      majority]
    omega
  refine ⟨_, List.getElem?_eq_getElem hlen, fun n => ?_⟩
  have hcount := lt_countP_iff (n := n) (List.pairwise_insertionSort (· ≥ ·) _)
    (List.getElem?_eq_getElem hlen)
  rw [(List.perm_insertionSort _ _).countP_eq] at hcount
  rw [← hcount, copies, majority]
  omega

/-- **`_advance_commit_index` finds the greatest index that may be committed**, and leaves
`commit_index` alone when there is none. -/
theorem advanceCommitIndex_greatest {peers : List ν} {node : RaftNode ν Cmd}
    (hcommit : -1 ≤ node.commitIndex)
    (hmatch : ∀ peer ∈ peers, node.matchIndex peer ≤ (node.log.length : ℤ) - 1)
    (hsorted : (node.log.map LogEntry.term).Pairwise (· ≤ ·))
    (hterm : ∀ e ∈ node.log, e.term ≤ node.currentTerm) :
    (∃ n, IsGreatest {n | Committable peers node n} n ∧
      (advanceCommitIndex peers node).1.commitIndex = n) ∨
    ((∀ n, ¬ Committable peers node n) ∧
      (advanceCommitIndex peers node).1.commitIndex = node.commitIndex) := by
  obtain ⟨m, hm, hcopies⟩ := exists_candidate peers node
  have hlast : m ≤ (node.log.length : ℤ) - 1 := by
    have hmem := (List.perm_insertionSort _ _).mem_iff.1 (List.mem_of_getElem? hm)
    rcases List.mem_append.1 hmem with hmem | hmem
    · obtain ⟨peer, hpeer, rfl⟩ := List.mem_map.1 hmem
      exact hmatch peer hpeer
    · exact (List.mem_singleton.1 hmem).le
  rcases lt_or_ge node.commitIndex m with hlt | hge
  · obtain ⟨k, rfl⟩ : ∃ k : ℕ, m = k := ⟨m.toNat, by omega⟩
    have hk : k < node.log.length := by omega
    have hentry : node.log[k]? = some node.log[k] := List.getElem?_eq_getElem hk
    by_cases hcurrent : node.log[k].term = node.currentTerm
    · refine .inl ⟨k, ⟨⟨hlt, (hcopies k).2 le_rfl, _, hentry, hcurrent⟩, ?_⟩, ?_⟩
      · intro n hn
        exact Int.ofNat_le.1 ((hcopies n).1 hn.2.1)
      · simp [advanceCommitIndex, hm, hlt, hentry, hcurrent]
    · refine .inr ⟨fun n hn => hcurrent ?_, ?_⟩
      · -- an index of the current term below the candidate makes the candidate one too
        obtain ⟨-, hmajority, entry, hn, hnterm⟩ := hn
        have hnk : n ≤ k := Int.ofNat_le.1 ((hcopies n).1 hmajority)
        have hle := TermLog.key_le_of_sorted hsorted hn hentry hnk
        exact le_antisymm (hterm _ (List.getElem_mem hk)) (hnterm ▸ hle)
      · simp [advanceCommitIndex, hm, hlt, hentry, hcurrent]
  · refine .inr ⟨fun n hn => ?_, ?_⟩
    · have := (hcopies n).1 hn.2.1
      have := hn.1
      omega
    · simp [advanceCommitIndex, hm, not_lt.2 hge]

/-- A leader of term 2 with four peers, two of which have its first entry of that term. -/
def ahead : RaftNode ℕ ℕ :=
  { init fun _ _ => true with
    state := .leader
    currentTerm := 2
    log := [⟨1, 7⟩, ⟨2, 8⟩, ⟨2, 9⟩]
    matchIndex := fun peer => if peer < 3 then 1 else -1 }

/-- It commits that entry. -/
theorem advanceCommitIndex_greatest_ahead :
    IsGreatest {n | Committable [1, 2, 3, 4] ahead n} 1 := by
  rcases @advanceCommitIndex_greatest ℕ ℕ [1, 2, 3, 4] ahead (by decide)
    (by decide) (by decide) (by decide) with ⟨n, hn, hcommit⟩ | ⟨-, hcommit⟩
  · have hone : (advanceCommitIndex [1, 2, 3, 4] ahead).1.commitIndex = 1 := by decide
    rw [hone] at hcommit
    obtain rfl : n = 1 := by omega
    exact hn
  · exact absurd hcommit (by decide)

/-! ### The two paths of `_replicate_log` -/

/-- How `_replicate_log` comes by its results: from `gather`, or after the timeout. -/
inductive CollectPath
  | gathered
  | timedOut
deriving DecidableEq, Repr

/-- The list `results` on a path, when the tasks have come to the given outcomes; `none` when
collecting them raises. -/
def CollectPath.results : CollectPath → List TaskOutcome → Option (List TaskResult)
  | .gathered, outcomes => gatherResults outcomes
  | .timedOut, outcomes => timeoutResults outcomes

/-- `gather` returns when no task is pending. -/
def CollectPath.possible : CollectPath → List TaskOutcome → Prop
  | .gathered, outcomes => .pending ∉ outcomes
  | .timedOut, _ => True

/-- `_replicate_log`, from the moment when it stops waiting.  The second component is what it
returns, `none` when it raises. -/
def replicateLogOn (path : CollectPath) (peers : List ν) (node : RaftNode ν Cmd)
    (outcomes : List TaskOutcome) : RaftNode ν Cmd × Option Bool :=
  match path.results outcomes with
  | none => (node, none)
  | some results =>
      if majority peers ≤ 1 + results.countP TaskResult.counts then
        let advanced := advanceCommitIndex peers node
        (advanced.1, if advanced.2 = true then some true else none)
      else (node, some false)

/-- The number of peers that replied success. -/
def successes (outcomes : List TaskOutcome) : ℕ := outcomes.countP (· = .returned true)

/-- The condition under which the count is right: cancelled tasks do not make up for missing
successes in the results of `gather`, no task has raised when the timeout is over, and committing
does not raise. -/
def CountsRight (path : CollectPath) (peers : List ν) (node : RaftNode ν Cmd)
    (outcomes : List TaskOutcome) : Prop :=
  (match path with
    | .gathered => majority peers ≤ 1 + successes outcomes ∨
        1 + successes outcomes + outcomes.countP (· = .cancelled) < majority peers
    | .timedOut => .raised ∉ outcomes) ∧
  (majority peers ≤ 1 + successes outcomes → (advanceCommitIndex peers node).2 = true)

theorem gatherResults_isSome {outcomes : List TaskOutcome} :
    (∃ results, gatherResults outcomes = some results) ↔ .pending ∉ outcomes := by
  induction outcomes with
  | nil => exact iff_of_true ⟨_, rfl⟩ List.not_mem_nil
  | cons o outcomes ih =>
      rw [List.mem_cons, not_or, ← ih]
      cases o with
      | pending => exact iff_of_false nofun fun h => h.1 rfl
      | returned b => simp [gatherResults]
      | raised | cancelled => simp [gatherResults]

theorem timeoutResults_isSome {outcomes : List TaskOutcome} :
    (∃ results, timeoutResults outcomes = some results) ↔ .raised ∉ outcomes := by
  induction outcomes with
  | nil => exact iff_of_true ⟨_, rfl⟩ List.not_mem_nil
  | cons o outcomes ih =>
      rw [List.mem_cons, not_or, ← ih]
      cases o with
      | raised => exact iff_of_false nofun fun h => h.1 rfl
      | returned b => simp [timeoutResults]
      | cancelled | pending => simp [timeoutResults]

/-- The cluster lets `_replicate_log` take the path of the timeout when a task is still pending. -/
theorem replicateLog_eq (outcomes : List TaskOutcome) :
    replicateLog outcomes =
      ((if .pending ∈ outcomes then CollectPath.timedOut else .gathered).results outcomes).map
        fun results => 1 + results.countP TaskResult.counts := by
  rw [replicateLog]
  congr 1
  by_cases hpending : .pending ∈ outcomes
  · have hnone : gatherResults outcomes = none :=
      Option.eq_none_iff_forall_ne_some.2 fun results hresults =>
        gatherResults_isSome.1 ⟨results, hresults⟩ hpending
    rw [if_pos hpending, hnone]
    rfl
  · obtain ⟨results, hresults⟩ := gatherResults_isSome.2 hpending
    rw [if_neg hpending, hresults]
    exact hresults.symm

/-- What `_replicate_log` returns, from the number it counts. -/
theorem replicateLogOn_of_results (path : CollectPath) {peers : List ν} {node : RaftNode ν Cmd}
    {outcomes : List TaskOutcome} {results : List TaskResult}
    (h : path.results outcomes = some results) :
    (replicateLogOn path peers node outcomes).2 =
      if majority peers ≤ 1 + results.countP TaskResult.counts then
        if (advanceCommitIndex peers node).2 = true then some true else none
      else some false := by
  rw [replicateLogOn, h]
  simp only
  split <;> rfl

/-- **When the count of the successes is right.**  On either path `_replicate_log` does not raise
and returns `True` exactly when the leader and the peers that replied success are a majority, if and
only if the condition holds. -/
theorem replicateLogOn_iff {path : CollectPath} {peers : List ν} {node : RaftNode ν Cmd}
    {outcomes : List TaskOutcome} (hpath : path.possible outcomes) :
    (replicateLogOn path peers node outcomes).2 =
        some (decide (majority peers ≤ 1 + successes outcomes)) ↔
      CountsRight path peers node outcomes := by
  cases path with
  | gathered =>
      obtain ⟨results, hresults⟩ := gatherResults_isSome.2 hpath
      have hcount := countP_gatherResults outcomes results hresults
      rw [replicateLogOn_of_results .gathered hresults, hcount, CountsRight, successes]
      by_cases hmajority : majority peers ≤ 1 + outcomes.countP (· = .returned true)
      · rw [if_pos (by omega)]
        simp [hmajority]
      · by_cases hcancelled : majority peers ≤
            1 + (outcomes.countP (· = .returned true) + outcomes.countP (· = .cancelled))
        · -- the cancelled tasks make a majority that is none
          rw [if_pos hcancelled]
          refine iff_of_false ?_ fun h => ?_
          · split <;> simp [hmajority]
          · have := h.1
            omega
        · rw [if_neg hcancelled]
          simp only [hmajority, decide_false, true_iff, false_or, false_imp_iff, and_true]
          omega
  | timedOut =>
      by_cases hraised : .raised ∈ outcomes
      · have hnone : timeoutResults outcomes = none :=
          Option.eq_none_iff_forall_ne_some.2 fun results hresults =>
            timeoutResults_isSome.1 ⟨results, hresults⟩ hraised
        simp [replicateLogOn, CollectPath.results, hnone, CountsRight, hraised]
      · obtain ⟨results, hresults⟩ := timeoutResults_isSome.2 hraised
        have hcount := countP_timeoutResults outcomes results hresults
        rw [replicateLogOn_of_results .timedOut hresults, hcount, CountsRight, successes]
        by_cases hmajority : majority peers ≤ 1 + outcomes.countP (· = .returned true)
        · simp [hmajority, hraised]
        · simp [hmajority, hraised]

/-- Two of four peers have replied success, one task has raised, and one has been cancelled. -/
theorem replicateLogOn_iff_ahead :
    (replicateLogOn .gathered [1, 2, 3, 4] ahead
      [.returned true, .raised, .cancelled, .returned true]).2 = some true := by
  have hpath : CollectPath.possible .gathered
      [.returned true, .raised, .cancelled, .returned true] := by simp [CollectPath.possible]
  exact (replicateLogOn_iff hpath).2 ⟨.inl (by decide), fun _ => by decide⟩

/-- **The count is not always right.**  Of four peers two have replied success when the timeout is
over, but the task of a third has raised; and a cancelled task is taken for a success, so that
`_replicate_log` returns `True` with two copies of five. -/
theorem replicateLogOn_wrong :
    (replicateLogOn .timedOut [1, 2, 3, 4] ahead
      [.returned true, .raised, .returned true, .pending]).2 = none ∧
    majority [1, 2, 3, 4] ≤ 1 + successes [.returned true, .raised, .returned true, .pending] ∧
    (replicateLogOn .gathered [1, 2, 3, 4] ahead
      [.returned true, .cancelled, .returned false, .returned false]).2 = some true ∧
    ¬ majority [1, 2, 3, 4] ≤
      1 + successes [.returned true, .cancelled, .returned false, .returned false] := by
  decide

end Raft
