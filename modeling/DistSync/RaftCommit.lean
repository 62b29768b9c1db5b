/-
**Counting copies, and applying what is committed.**

`append_entry` returns `True` when enough of its replication tasks have finished with `True`, and
`_advance_commit_index` looks for an index that enough of the peers have according to `match_index`.
Both count to `majority()` with the node itself, so they give the members of a majority; that the
tasks of one call of `append_entry` are for different peers is an invariant of the task lists.

`_apply_committed` calls `apply_callback` for the entries of the log one by one.  As long as
`commit_index` stays inside the log, and the log keeps what is committed, the commands that were
passed to it are those of a prefix of the log.

Main definitions:

* `Raft.AppliedInv` — what was applied is a prefix of the log;
* `Raft.TaskListInv` — the tasks of a call of `append_entry` are for different peers.

Main results:

* `Raft.AppliedInv.applyCommitted` — `_apply_committed` applies what is next in the log;
* `Raft.advanceCommitIndex_cases` — a majority has the entry that is committed;
* `Raft.isMajority_of_successes` — a majority has the entry that `append_entry` returns `True` for.
-/

import DistSync.RaftLogMatching

set_option relaxedAutoImplicit false
set_option autoImplicit false

namespace Raft

variable {ν Cmd : Type}

/-! ### Applying -/

/-- The commands of a log with their indexes. -/
def enumerate (log : List (LogEntry Cmd)) : List (ℤ × Cmd) :=
  log.mapIdx fun i entry => ((i : ℤ), entry.command)

/-- The commands that were applied are those of the log up to `last_applied`, which is at most
`commit_index`, an index of the log. -/
structure AppliedInv (node : RaftNode ν Cmd) : Prop where
  ge : -1 ≤ node.lastApplied
  le : node.lastApplied ≤ node.commitIndex
  lt : node.commitIndex < node.log.length
  applied : node.applied = enumerate (node.log.take (node.lastApplied + 1).toNat)

theorem appliedInv_init (callback : ApplyCallback Cmd) :
    AppliedInv (init callback : RaftNode ν Cmd) :=
  ⟨le_rfl, le_rfl, by simp [init], rfl⟩

/-- The log may change behind what is committed, and `commit_index` may rise. -/
theorem AppliedInv.of_isPrefix {node node' : RaftNode ν Cmd} (h : AppliedInv node)
    (hlog : node.log.take (node.commitIndex + 1).toNat <+: node'.log)
    (hcommit : node.commitIndex ≤ node'.commitIndex) (hlt : node'.commitIndex < node'.log.length)
    (hlast : node'.lastApplied = node.lastApplied) (happlied : node'.applied = node.applied) :
    AppliedInv node' where
  ge := hlast ▸ h.ge
  le := by
    rw [hlast]
    exact h.le.trans hcommit
  lt := hlt
  applied := by
    have hge := h.ge
    have hle := h.le
    have hltn := h.lt
    have htake : (node.log.take (node.commitIndex + 1).toNat).take (node.lastApplied + 1).toNat =
        node'.log.take (node.lastApplied + 1).toNat := by
      rw [List.prefix_iff_eq_take.1 hlog, List.take_take, List.length_take]
      congr 1
      omega
    rw [happlied, h.applied, hlast, ← htake, List.take_take]
    congr 2
    omega

/-- The next entry is applied. -/
theorem AppliedInv.next {node : RaftNode ν Cmd} (h : AppliedInv node) {i : ℕ}
    (hi : node.lastApplied + 1 = i) (hcommit : (i : ℤ) ≤ node.commitIndex) {entry : LogEntry Cmd}
    (hentry : node.log[i]? = some entry) :
    AppliedInv { node with
      lastApplied := i
      applied := node.applied ++ [((i : ℤ), entry.command)] } where
  ge := by
    simp only
    omega
  le := hcommit
  lt := h.lt
  applied := by
    have hlen := (List.getElem?_eq_some_iff.1 hentry).1
    have hnext : ((i : ℤ) + 1).toNat = i + 1 := by omega
    simp only [h.applied, hi, Int.toNat_natCast, hnext]
    rw [TermLog.take_succ_eq_append hentry, enumerate, enumerate, List.mapIdx_append]
    simp [hlen.le]

/-- The loop applies the next entries, until it is through or the callback raises. -/
theorem AppliedInv.applyLoop :
    ∀ (k : ℕ) {node : RaftNode ν Cmd}, AppliedInv node → node.lastApplied + k ≤ node.commitIndex →
      AppliedInv (Raft.applyLoop k node).1 := by
  intro k
  induction k with
  | zero => exact fun h _ => h
  | succ k ih =>
      intro node h hle
      have hge := h.ge
      have hlt := h.lt
      obtain ⟨i, hi⟩ : ∃ i : ℕ, node.lastApplied + 1 = i := ⟨(node.lastApplied + 1).toNat, by omega⟩
      have hlen : i < node.log.length := by omega
      have hentry : node.log[i]? = some node.log[i] := List.getElem?_eq_getElem hlen
      have hnext := h.next hi (by omega) hentry
      simp only [Raft.applyLoop, hi, Int.toNat_natCast, hentry]
      split
      · refine ih hnext ?_
        simp only
        omega
      · exact hnext

/-- **`_apply_committed` applies what is next in the log.** -/
theorem AppliedInv.applyCommitted {node : RaftNode ν Cmd} (h : AppliedInv node) :
    AppliedInv (applyCommitted node).1 := by
  have hle := h.le
  exact h.applyLoop _ (by omega)

/-! ### Counting peers -/

/-- In a list in descending order, the first `i + 1` elements are at least the one at `i`. -/
theorem le_countP_of_sorted {l : List ℤ} (hl : l.Pairwise (· ≥ ·)) {i : ℕ} {m : ℤ}
    (hi : l[i]? = some m) : i + 1 ≤ l.countP (m ≤ ·) := by
  obtain ⟨hlen, hm⟩ := List.getElem?_eq_some_iff.1 hi
  have htake : (l.take (i + 1)).countP (m ≤ ·) = i + 1 := by
    rw [List.countP_eq_length.2, List.length_take, min_eq_left hlen]
    intro x hx
    obtain ⟨j, hj, rfl⟩ := List.mem_take_iff_getElem.1 hx
    have hji : j ≤ i := by omega
    rw [decide_eq_true_eq, ← hm]
    exact hl.rel_get_of_le (a := ⟨j, by omega⟩) (b := ⟨i, hlen⟩) hji
  rw [← htake]
  exact (List.take_sublist _ _).countP_le

/-- **What `_advance_commit_index` does**: `commit_index` stays, or goes to an entry of the current
term that is at most `match_index` for enough peers. -/
theorem advanceCommitIndex_cases (peers : List ν) (node : RaftNode ν Cmd) :
    advanceCommitIndex peers node = (node, false) ∨
    advanceCommitIndex peers node = applyCommitted node ∨
    ∃ (m : ℤ) (entry : LogEntry Cmd), node.commitIndex < m ∧ node.log[m.toNat]? = some entry ∧
      entry.term = node.currentTerm ∧
      majority peers ≤ 1 + (peers.filter fun peer => m ≤ node.matchIndex peer).length ∧
      advanceCommitIndex peers node = applyCommitted { node with commitIndex := m } := by
  unfold advanceCommitIndex
  simp only
  split
  · exact .inl rfl
  · next m hm =>
      split
      · next hlt =>
          split
          · exact .inl rfl
          · next entry hentry =>
              split
              · next hterm =>
                  refine .inr (.inr ⟨m, entry, hlt, hentry, hterm, ?_, rfl⟩)
                  -- in a list sorted downwards, all up to an index are at least the element there
                  have hcount := le_countP_of_sorted (List.pairwise_insertionSort _ _) hm
                  rw [(List.perm_insertionSort _ _).countP_eq, List.countP_append,
                    List.countP_map] at hcount
                  have hself := List.countP_le_length (p := (m ≤ ·))
                    (l := [(node.log.length : ℤ) - 1])
                  rw [← List.countP_eq_length_filter]
                  have hpos : 1 ≤ majority peers := Nat.le_add_left _ _
                  simp only [Function.comp_def, List.length_singleton] at hcount hself
                  omega
              · exact .inr (.inl rfl)
      · exact .inr (.inl rfl)

/-! ### Counting tasks -/

/-- A task returns or is pending. -/
def TaskOutcome.plain (o : TaskOutcome) : Prop := (∃ b, o = .returned b) ∨ o = .pending

/-- When all tasks have finished, those that returned `True` count, and the cancelled ones. -/
theorem countP_gatherResults (outcomes : List TaskOutcome) :
    ∀ results ∈ gatherResults outcomes, results.countP TaskResult.counts =
      outcomes.countP (· = .returned true) + outcomes.countP (· = .cancelled) := by
  induction outcomes with
  | nil =>
      intro results hresults
      cases hresults
      rfl
  | cons o outcomes ih =>
      intro results hresults
      cases o with
      | returned b =>
          obtain ⟨rest, hrest, rfl⟩ := Option.map_eq_some_iff.1 hresults
          simp only [List.countP_cons, ih rest hrest]
          cases b <;> simp [TaskResult.counts]
          omega
      | raised =>
          obtain ⟨rest, hrest, rfl⟩ := Option.map_eq_some_iff.1 hresults
          simpa [TaskResult.counts] using ih rest hrest
      | cancelled =>
          obtain ⟨rest, hrest, rfl⟩ := Option.map_eq_some_iff.1 hresults
          simp only [List.countP_cons, ih rest hrest]
          simp [TaskResult.counts]
          omega
      | pending => cases hresults

/-- After the timeout only those count that returned `True`. -/
theorem countP_timeoutResults (outcomes : List TaskOutcome) :
    ∀ results ∈ timeoutResults outcomes,
      results.countP TaskResult.counts = outcomes.countP (· = .returned true) := by
  induction outcomes with
  | nil =>
      intro results hresults
      cases hresults
      rfl
  | cons o outcomes ih =>
      intro results hresults
      cases o with
      | returned b =>
          obtain ⟨rest, hrest, rfl⟩ := Option.map_eq_some_iff.1 hresults
          simp only [List.countP_cons, ih rest hrest]
          cases b <;> simp [TaskResult.counts]
      | raised => cases hresults
      | cancelled => simpa using ih results hresults
      | pending => simpa using ih results hresults

/-- Tasks that return or are pending count when they return `True`. -/
theorem successes_eq {outcomes : List TaskOutcome} (h : ∀ o ∈ outcomes, o.plain) {k : ℕ}
    (hk : replicateLog outcomes = some k) : k = 1 + outcomes.countP (· = .returned true) := by
  obtain ⟨results, hresults, rfl⟩ := Option.map_eq_some_iff.1 hk
  cases hgather : gatherResults outcomes with
  | some found =>
      rw [hgather] at hresults
      cases hresults
      have hnone : outcomes.countP (· = .cancelled) = 0 := by
        refine List.countP_eq_zero.2 fun o ho => ?_
        rcases h o ho with ⟨b, rfl⟩ | rfl <;> simp
      rw [countP_gatherResults outcomes _ hgather, hnone, Nat.add_zero]
  | none =>
      rw [hgather] at hresults
      rw [countP_timeoutResults outcomes _ hresults]

theorem plain_outcome (task : ReplicateTask ν Cmd) : task.outcome.plain := by
  unfold ReplicateTask.outcome
  split
  · exact .inl ⟨_, rfl⟩
  · exact .inr rfl

/-- Members call `append_entry`, the tasks of a call are for different peers, and the numbers of
these calls have been given out. -/
structure TaskListInv [DecidableEq ν] (M : Membership ν) (n : ν) (p : Process ν Cmd) : Prop where
  member : ∀ frame ∈ p.appends, n ∈ M.nodes
  peers : ∀ id, ((p.tasks.filter (·.owner = .append id)).map (·.peer)).Nodup
  task_lt : ∀ task ∈ p.tasks, ∀ id, task.owner = .append id → id < p.nextId
  frame_lt : ∀ frame ∈ p.appends, frame.id < p.nextId

section Cluster

variable [DecidableEq ν] {M : Membership ν} {s s' : Cluster ν Cmd}
  {callback : ν → ApplyCallback Cmd}

/-- **The successes of `append_entry` come from a majority**: the node and the peers whose tasks
have returned `True`. -/
theorem isMajority_of_successes {n : ν} (hn : n ∈ M.nodes) {p : Process ν Cmd}
    (hp : TaskListInv M n p)
    (htasks : ∀ task ∈ p.tasks, task.peer ∈ M.peers n) {id k : ℕ}
    (hk : replicateLog (p.outcomes id) = some k) (hmajority : majority (M.peers n) ≤ k) :
    ∃ Q, M.IsMajority Q ∧ ∀ q ∈ Q, q = n ∨ ∃ task ∈ p.tasks, task.owner = .append id ∧
      task.stage = .finished true ∧ task.peer = q := by
  set done := (p.tasks.filter (·.owner = .append id)).filter (·.outcome = .returned true) with hdone
  have hmem : ∀ task ∈ done, task ∈ p.tasks ∧ task.owner = .append id ∧
      task.stage = .finished true := by
    intro task htask
    obtain ⟨htask, houtcome⟩ := List.mem_filter.1 htask
    obtain ⟨htask, howner⟩ := List.mem_filter.1 htask
    refine ⟨htask, of_decide_eq_true howner, ?_⟩
    have hreturned := of_decide_eq_true houtcome
    unfold ReplicateTask.outcome at hreturned
    split at hreturned
    · next hstage =>
        cases hreturned
        exact hstage
    · cases hreturned
  have hlen : k = 1 + (done.map (·.peer)).length := by
    rw [successes_eq (fun o ho => ?_) hk, Process.outcomes, List.countP_map,
      List.countP_eq_length_filter, List.length_map, hdone]
    · rfl
    · obtain ⟨task, -, rfl⟩ := List.mem_map.1 ho
      exact plain_outcome task
  have hnodup : (done.map (·.peer)).Nodup :=
    ((List.filter_sublist).map _).nodup (hp.peers id)
  refine ⟨_, M.isMajority_insert hn hnodup (fun q hq => ?_) (hlen ▸ hmajority), fun q hq => ?_⟩
  · obtain ⟨task, htask, rfl⟩ := List.mem_map.1 hq
    exact htasks task (hmem task htask).1
  · rcases Finset.mem_insert.1 hq with rfl | hq
    · exact .inl rfl
    · obtain ⟨task, htask, rfl⟩ := List.mem_map.1 (List.mem_toFinset.1 hq)
      obtain ⟨hin, howner, hstage⟩ := hmem task htask
      exact .inr ⟨task, hin, howner, hstage, rfl⟩

/-! ### The lists of tasks -/

omit [DecidableEq ν] in
theorem nodup_peers {n : ν} (hn : n ∈ M.nodes) : (M.peers n).Nodup :=
  (List.nodup_cons.1 ((M.peers_perm n hn).nodup_iff.2 M.nodup)).2

/-- Dropping tasks and frames. -/
theorem TaskListInv.of_sublist {n : ν} {p p' : Process ν Cmd} (h : TaskListInv M n p)
    (htasks : p'.tasks.Sublist p.tasks) (happends : ∀ frame ∈ p'.appends, frame ∈ p.appends)
    (hnext : p'.nextId = p.nextId) : TaskListInv M n p' where
  member := fun frame hframe => h.member frame (happends frame hframe)
  peers := fun id => ((htasks.filter _).map _).nodup (h.peers id)
  task_lt := fun task htask id howner => hnext ▸ h.task_lt task (htasks.subset htask) id howner
  frame_lt := fun frame hframe => hnext ▸ h.frame_lt frame (happends frame hframe)

/-- A task gets further. -/
theorem TaskListInv.set {n : ν} {p p' : Process ν Cmd} (h : TaskListInv M n p) {k : ℕ}
    {owner : Owner} {peer : ν} {stage stage' : Stage ν Cmd}
    (htask : p.tasks[k]? = some ⟨owner, peer, stage⟩)
    (htasks : p'.tasks = p.tasks.set k ⟨owner, peer, stage'⟩) (happends : p'.appends = p.appends)
    (hnext : p'.nextId = p.nextId) : TaskListInv M n p' := by
  have hsame : ∀ id, (p'.tasks.filter (·.owner = .append id)).map (·.peer) =
      (p.tasks.filter (·.owner = .append id)).map (·.peer) := by
    intro id
    -- the step changes neither the owner nor the peer of a task
    have hmap : p'.tasks.map (fun task => (task.owner, task.peer)) =
        p.tasks.map fun task => (task.owner, task.peer) := by
      have hk : (p.tasks.map fun task => (task.owner, task.peer))[k]? = some (owner, peer) := by
        rw [List.getElem?_map, htask]
        rfl
      obtain ⟨hlt, hval⟩ := List.getElem?_eq_some_iff.1 hk
      rw [htasks, List.map_set, ← hval, List.set_getElem_self]
    have hpeers : ∀ tasks : List (ReplicateTask ν Cmd),
        (tasks.filter (·.owner = .append id)).map (·.peer) =
          ((tasks.map fun task => (task.owner, task.peer)).filter (·.1 = .append id)).map
            Prod.snd := by
      intro tasks
      rw [List.filter_map, List.map_map]
      rfl
    rw [hpeers, hpeers, hmap]
  refine ⟨fun frame hframe => h.member frame (happends ▸ hframe), fun id => hsame id ▸ h.peers id,
    fun task hmem id howner => ?_, fun frame hframe => ?_⟩
  · rw [hnext]
    rw [htasks] at hmem
    rcases List.mem_or_eq_of_mem_set hmem with hmem | rfl
    · exact h.task_lt task hmem id howner
    · exact h.task_lt _ (List.mem_of_getElem? htask) id howner
  · rw [hnext]
    exact h.frame_lt frame (happends ▸ hframe)

/-- New tasks of a call that has got a new number. -/
theorem TaskListInv.append {n : ν} {p p' : Process ν Cmd} (h : TaskListInv M n p) (hn : n ∈ M.nodes)
    {frame : AppendFrame Cmd} (hid : frame.id = p.nextId)
    (htasks : p'.tasks = p.tasks ++ createTasks (.append p.nextId) (M.peers n))
    (happends : p'.appends = p.appends ++ [frame]) (hnext : p'.nextId = p.nextId + 1) :
    TaskListInv M n p' := by
  have hcreated : ∀ task ∈ (createTasks (.append p.nextId) (M.peers n) :
      List (ReplicateTask ν Cmd)), task.owner = .append p.nextId := by
    intro task htask
    obtain ⟨peer, -, rfl⟩ := List.mem_map.1 htask
    rfl
  refine ⟨fun _ _ => hn, fun id => ?_, fun task htask id howner => ?_, fun f hf => ?_⟩
  · rw [htasks, List.filter_append]
    by_cases hid' : id = p.nextId
    · -- the number is new, so no earlier task has it
      have hold : p.tasks.filter (·.owner = .append id) = [] := by
        rw [List.filter_eq_nil_iff]
        intro task htask howner
        have hlt := h.task_lt task htask id (of_decide_eq_true howner)
        omega
      have hnew : (createTasks (.append p.nextId) (M.peers n) :
          List (ReplicateTask ν Cmd)).filter (·.owner = .append id) =
            createTasks (.append p.nextId) (M.peers n) := by
        rw [List.filter_eq_self]
        intro task htask
        rw [decide_eq_true_eq, hcreated task htask, hid']
      rw [hold, hnew, List.nil_append, createTasks, List.map_map]
      exact (List.map_id (M.peers n)).symm ▸ nodup_peers hn
    · have hnew : (createTasks (.append p.nextId) (M.peers n) :
          List (ReplicateTask ν Cmd)).filter (·.owner = .append id) = [] := by
        rw [List.filter_eq_nil_iff]
        intro task htask howner
        rw [decide_eq_true_eq, hcreated task htask, Owner.append.injEq] at howner
        exact hid' howner.symm
      rw [hnew, List.append_nil]
      exact h.peers id
  · rw [htasks] at htask
    rw [hnext]
    rcases List.mem_append.1 htask with htask | htask
    · exact (h.task_lt task htask id howner).trans (Nat.lt_succ_self _)
    · rw [hcreated task htask, Owner.append.injEq] at howner
      omega
  · rw [happends] at hf
    rw [hnext]
    rcases List.mem_append.1 hf with hf | hf
    · exact (h.frame_lt f hf).trans (Nat.lt_succ_self _)
    · rw [List.mem_singleton.1 hf, hid]
      exact Nat.lt_succ_self _

/-- The tasks of a round of heartbeats belong to no call of `append_entry`. -/
theorem TaskListInv.heartbeat {n : ν} {p p' : Process ν Cmd} (h : TaskListInv M n p)
    (htasks : p'.tasks = p.tasks.filter (·.owner ≠ .heartbeat) ++
      createTasks .heartbeat (M.peers n))
    (happends : p'.appends = p.appends) (hnext : p'.nextId = p.nextId) :
    TaskListInv M n p' := by
  have hcreated : ∀ task ∈ (createTasks .heartbeat (M.peers n) : List (ReplicateTask ν Cmd)),
      task.owner = .heartbeat := by
    intro task htask
    obtain ⟨peer, -, rfl⟩ := List.mem_map.1 htask
    rfl
  refine ⟨fun f hf => h.member f (happends ▸ hf), fun id => ?_, fun task htask id howner => ?_,
    fun f hf => ?_⟩
  · have hnew : (createTasks .heartbeat (M.peers n) :
        List (ReplicateTask ν Cmd)).filter (·.owner = .append id) = [] := by
      rw [List.filter_eq_nil_iff]
      intro task htask howner
      rw [decide_eq_true_eq, hcreated task htask] at howner
      cases howner
    rw [htasks, List.filter_append, hnew, List.append_nil]
    exact ((List.filter_sublist.filter _).map _).nodup (h.peers id)
  · rw [htasks] at htask
    rw [hnext]
    rcases List.mem_append.1 htask with htask | htask
    · exact h.task_lt task (List.mem_of_mem_filter htask) id howner
    · rw [hcreated task htask] at howner
      cases howner
  · rw [hnext]
    exact h.frame_lt f (happends ▸ hf)

theorem TaskListInv.step {a : Action ν Cmd} (hI : ∀ n, TaskListInv M n (s.nodes n))
    (hF : FrameInv M s) (h : Moves M s a s') (n : ν) : TaskListInv M n (s'.nodes n) := by
  have key : ∀ {m : ν} {p : Process ν Cmd}, TaskListInv M m p →
      TaskListInv M n ((s.set m p).nodes n) := fun hp =>
    Cluster.set_forall (P := fun m p => TaskListInv M m p) hI hp n
  have hkeep : ∀ {m : ν} {p : Process ν Cmd}, p.tasks.Sublist (s.nodes m).tasks →
      (∀ frame ∈ p.appends, frame ∈ (s.nodes m).appends) → p.nextId = (s.nodes m).nextId →
      TaskListInv M n ((s.set m p).nodes n) := fun htasks happends hnext =>
    key ((hI _).of_sublist htasks happends hnext)
  cases h with
  | electionTimeout => exact hkeep (.refl _) (fun _ h => h) rfl
  | requestVote => exact hkeep (.refl _) (fun _ h => h) rfl
  | electionWon => exact hkeep List.filter_sublist (fun _ h => h) rfl
  | electionLost => exact hkeep (.refl _) (fun _ h => h) rfl
  | appendEntry hleader => exact key ((hI _).append (hF.leader _ hleader) rfl rfl rfl rfl)
  | heartbeat => exact key ((hI _).heartbeat rfl rfl rfl)
  | heartbeatExit => exact hkeep List.filter_sublist (fun _ h => h) rfl
  | replicateStart htask => exact key ((hI _).set htask rfl rfl rfl)
  | appendEntries => exact hkeep (.refl _) (fun _ h => h) rfl
  | replicateEnd htask => exact key ((hI _).set htask rfl rfl rfl)
  | appendEnd => exact hkeep List.filter_sublist (fun _ h => List.mem_of_mem_filter h) rfl

theorem taskListInv_initial (n : ν) : TaskListInv M n ((initial callback).nodes n) :=
  ⟨fun _ h => (by cases h), fun _ => List.nodup_nil, fun _ h => (by cases h),
    fun _ h => (by cases h)⟩

end Cluster

end Raft
