/-
**A request that is served alone is a run of the cluster.**

The cluster takes one step between two awaits, and the handlers of `handleGet` and `handlePut` go to
their ends at once.  When all peers are reached, no value is null and nothing else is going on, both
come to the same: the calls of a broadcast are served one after the other, and the handler goes on
when all are answered.

Main definitions:

* `CacheNode.alone`, `CacheNode.answered` — one handler is running, or has answered.

Main results:

* `CacheNode.run_broadcast` — the calls of a broadcast, one after the other;
* `CacheNode.run_handleGet`, `CacheNode.run_handlePut` — **the handlers are runs of the cluster**;
* `CacheNode.exists_run_calls` — **requests one after another are a run from the start**: the link
  between the calls of `handleGet` and `handlePut` and the runs of the cluster.
-/

import DistSync.CacheFailures

set_option relaxedAutoImplicit false
set_option autoImplicit false

namespace CacheNode

open Runs

variable {ν β : Type*} [DecidableEq ν] {M : Setup ν} {nodes : ν → DistributedCacheNode β}
  {n : ν} {request : Request β} {key : String} {value : β}
  {answers : List (ν × Request β × Response β)}

/-! ### One handler alone -/

/-- The cluster where one handler is running. -/
def alone (nodes : ν → DistributedCacheNode β) (n : ν) (request : Request β) (stage : Stage ν β)
    (answers : List (ν × Request β × Response β)) : Cluster ν β :=
  ⟨nodes, [⟨n, request, stage⟩], answers⟩

/-- The cluster where the handler has answered. -/
def answered (nodes : ν → DistributedCacheNode β) (n : ν) (request : Request β)
    (response : Response β) (answers : List (ν × Request β × Response β)) : Cluster ν β :=
  ⟨nodes, [], answers ++ [(n, request, response)]⟩

theorem setNode_nodes (s : Cluster ν β) (n : ν) (node : DistributedCacheNode β) :
    (s.setNode n node).nodes = Function.update s.nodes n node := by
  funext m
  rw [Function.update_apply]
  rfl

/-- The end of both handlers. -/
theorem run_install (nodes : ν → DistributedCacheNode β) (n : ν) (request : Request β)
    (stage : Stage ν β) (answers : List (ν × Request β × Response β)) (entry : CacheEntry β)
    (response : Response β) :
    Run (step M) anyAction
      ((alone nodes n request stage answers).install 0 ⟨n, request, stage⟩ entry response)
      (answered (Function.update nodes n ((nodes n).install request.key entry)) n request response
        answers) := by
  unfold Cluster.install DistributedCacheNode.install
  simp only [alone]
  cases (nodes n).cache.put request.key entry with
  | mk cache evicted =>
      cases evicted with
      | none =>
          rw [← setNode_nodes ⟨nodes, [], answers⟩]
          exact .refl _
      | some evicted =>
          obtain ⟨evictedKey, evicted⟩ := evicted
          simp only
          split
          · -- the write-back is one more step
            refine .single (a := .resume 0) trivial ?_
            have hnodes : (((Cluster.setCache ⟨nodes, [], answers⟩ n cache).writeMemory n evictedKey
                evicted.value)).nodes = Function.update nodes n
                  ⟨cache, (nodes n).memoryDb.set evictedKey evicted.value⟩ := by
              funext m
              rw [Function.update_apply]
              simp only [Cluster.writeMemory, Cluster.setCache, Cluster.setNode, if_true]
              split <;> rfl
            rw [answered, ← hnodes]
            rfl
          · rw [← setNode_nodes ⟨nodes, [], answers⟩]
            exact .refl _

/-! ### Broadcasts -/

/-- The calls of a broadcast are served one after the other: when one call can be, all can be. -/
theorem run_broadcast {γ : Type*} {stage : List (ν × γ) → Stage ν β} {sent : γ}
    {served : DistributedCacheNode β → γ} {serve : DistributedCacheNode β → DistributedCacheNode β}
    (hcall : ∀ (nodes : ν → DistributedCacheNode β) (p : ν) (before after : List (ν × γ)),
      Run (step M) anyAction
        (alone nodes n request (stage (before ++ (p, sent) :: after)) answers)
        (alone (Function.update nodes p (serve (nodes p))) n request
          (stage (before ++ (p, served (nodes p)) :: after)) answers))
    {peers : List ν} (hnodup : peers.Nodup) (before : List (ν × γ)) :
    Run (step M) anyAction
      (alone nodes n request (stage (before ++ peers.map fun p => (p, sent))) answers)
      (alone (broadcast peers everyone serve nodes) n request
        (stage (before ++ peers.map fun p => (p, served (nodes p)))) answers) := by
  induction peers generalizing nodes before with
  | nil =>
      have hnone : broadcast [] everyone serve nodes = nodes :=
        funext fun m => if_neg fun h => List.not_mem_nil h.1
      rw [hnone]
      exact .refl _
  | cons p peers ih =>
      rw [List.nodup_cons] at hnodup
      have hrest := @ih (Function.update nodes p (serve (nodes p))) hnodup.2
        (before ++ [(p, served (nodes p))])
      have hnodes : broadcast peers everyone serve (Function.update nodes p (serve (nodes p))) =
          broadcast (p :: peers) everyone serve nodes := by
        funext m
        simp only [broadcast, everyone, and_true, List.mem_cons]
        by_cases hm : m = p
        · subst hm
          rw [if_neg hnodup.1, if_pos (.inl rfl), Function.update_self]
        · simp only [Function.update_of_ne hm, hm, false_or]
      have hserved : (peers.map fun q =>
          (q, served (Function.update nodes p (serve (nodes p)) q))) =
            peers.map fun q => (q, served (nodes q)) := by
        refine List.map_congr_left fun q hq => ?_
        have hne : q ≠ p := fun heq => hnodup.1 (heq ▸ hq)
        rw [Function.update_of_ne hne]
      rw [hnodes, hserved, List.append_assoc, List.append_assoc] at hrest
      exact (hcall nodes p before (peers.map fun q => (q, sent))).trans hrest

omit [DecidableEq ν] in
/-- The call after some others. -/
theorem getElem?_call {γ : Type*} (before after : List (ν × γ)) (p : ν) (call : γ) :
    (before ++ (p, call) :: after)[before.length]? = some (p, call) := by
  simp

omit [DecidableEq ν] in
theorem set_call {γ : Type*} (before after : List (ν × γ)) (p : ν) (call call' : γ) :
    (before ++ (p, call) :: after).set before.length (p, call') =
      before ++ (p, call') :: after := by
  simp

/-- An invalidation is served. -/
theorem run_internalInvalidate (nodes : ν → DistributedCacheNode β) (p : ν)
    (before after : List (ν × Bool)) :
    Run (step M) anyAction
      (alone nodes n request (.invalidating value (before ++ (p, false) :: after)) answers)
      (alone (Function.update nodes p (handleInternalInvalidate (nodes p) request.key)) n request
        (.invalidating value (before ++ (p, true) :: after)) answers) := by
  refine .single (a := .internalInvalidate 0 before.length) trivial ?_
  simp only [step, alone, List.getElem?_cons_zero, getElem?_call, set_call]
  rw [Cluster.setCache, Cluster.setStage, ← setNode_nodes ⟨nodes, [], []⟩]
  rfl

/-- An internal read comes to its `await`, if it has one. -/
theorem step_internalRead (nodes : ν → DistributedCacheNode β) (p : ν)
    (before after : List (ν × ReadCall β)) :
    step M (alone nodes n request (.reading (before ++ (p, .sent) :: after)) answers)
      (.internalRead 0 before.length) = some (alone
        (Function.update nodes p { nodes p with
          cache := (internalRead (nodes p).cache (M.queryKey request.key)).1 }) n request
        (.reading (before ++
          (p, (internalRead (nodes p).cache (M.queryKey request.key)).2) :: after)) answers) := by
  simp only [step, alone, List.getElem?_cons_zero, getElem?_call, set_call]
  rw [Cluster.setCache, Cluster.setStage, ← setNode_nodes ⟨nodes, [], []⟩]
  rfl

/-- The write-back of an internal read. -/
theorem step_internalReadDone (nodes : ν → DistributedCacheNode β) (p : ν)
    (before after : List (ν × ReadCall β)) {o : ℕ} {entry : CacheEntry β}
    (hquery : M.queryKey request.key = some key)
    (hobject : (nodes p).cache.objects[o]? = some entry) :
    step M (alone nodes n request (.reading (before ++ (p, .writingBack o) :: after)) answers)
      (.internalReadDone 0 before.length) = some (alone
        (Function.update nodes p
          ⟨(nodes p).cache.setState o .S, (nodes p).memoryDb.set key entry.value⟩) n request
        (.reading (before ++ (p, .answered (some entry.value)) :: after)) answers) := by
  have hnodes : (((Cluster.writeMemory ⟨nodes, [], answers⟩ p key entry.value).setCache p
      ((nodes p).cache.setState o .S))).nodes = Function.update nodes p
        ⟨(nodes p).cache.setState o .S, (nodes p).memoryDb.set key entry.value⟩ := by
    funext m
    rw [Function.update_apply]
    simp only [Cluster.writeMemory, Cluster.setCache, Cluster.setNode, if_true]
    split <;> rfl
  simp only [step, alone, List.getElem?_cons_zero, getElem?_call, set_call, hquery, hobject]
  rw [← hnodes]
  rfl

/-- An internal read is served, with the write-back of a modified entry. -/
theorem run_internalRead (nodes : ν → DistributedCacheNode β) (p : ν)
    (before after : List (ν × ReadCall β)) :
    Run (step M) anyAction
      (alone nodes n request (.reading (before ++ (p, .sent) :: after)) answers)
      (alone (Function.update nodes p
          (handleInternalRead (nodes p) (M.queryKey request.key)).1) n request
        (.reading (before ++
          (p, .answered (handleInternalRead (nodes p) (M.queryKey request.key)).2) :: after))
        answers) := by
  have hread := @step_internalRead _ _ _ M n request answers nodes p before after
  cases hquery : M.queryKey request.key with
  | none =>
      rw [hquery] at hread
      exact .single trivial hread
  | some key =>
      rw [hquery] at hread
      cases hget : ((nodes p).cache.get key).2 with
      | none =>
          have hpair : (nodes p).cache.get key = ((nodes p).cache, none) :=
            Prod.ext (LruCache.get_eq_none hget).1 hget
          simp only [internalRead, hpair] at hread
          simp only [handleInternalRead, hpair]
          exact .single trivial hread
      | some found =>
          obtain ⟨o, entry⟩ := found
          obtain ⟨-, hobject, -, -, htouch⟩ := LruCache.get_eq_some hget
          have hpair : (nodes p).cache.get key = ((nodes p).cache.touch key, some (o, entry)) :=
            Prod.ext htouch hget
          simp only [internalRead, hpair] at hread
          simp only [handleInternalRead, hpair]
          cases hstate : entry.state with
          | M =>
              simp only [hstate] at hread ⊢
              have hdone := @step_internalReadDone _ _ _ M n request key answers
                (Function.update nodes p { nodes p with cache := (nodes p).cache.touch key }) p
                before after o entry hquery (by rw [Function.update_self]; exact hobject)
              rw [Function.update_idem, Function.update_self] at hdone
              exact (Run.single trivial hread).tail trivial hdone
          | E | S | I =>
              simp only [hstate] at hread ⊢
              exact .single trivial hread

/-! ### Requests -/

/-- A put that is served alone. -/
theorem run_handlePut (nodes : ν → DistributedCacheNode β) (n : ν) (key : String) (value : β)
    (answers : List (ν × Request β × Response β)) :
    Run (step M) anyAction ⟨nodes, [], answers⟩
      (answered (handlePut M everyone n key value nodes).1 n (.put key value)
        (handlePut M everyone n key value nodes).2 answers) := by
  by_cases hkey : key = ""
  · refine .single (a := .put n key value) trivial ?_
    simp only [step, handlePut, if_pos hkey]
    rfl
  · have hbegin : Run (step M) anyAction ⟨nodes, [], answers⟩ (alone nodes n (.put key value)
        (.invalidating value ([] ++ (M.peers n).map fun p => (p, false))) answers) :=
      .single (a := .put n key value) trivial (if_neg hkey)
    have htold := @run_broadcast _ _ _ M nodes n (.put key value) answers _
      (.invalidating value) false (fun _ => true) (fun node => handleInternalInvalidate node key)
      (fun nodes p before after => run_internalInvalidate nodes p before after) _ (M.nodup n) []
    -- all peers have answered
    have hall : (([] ++ (M.peers n).map fun p => (p, true)).all fun call => call.2) = true := by
      simp
    have hwriting : ∀ nodes' : ν → DistributedCacheNode β,
        Run (step M) anyAction
          (alone nodes' n (.put key value)
            (.invalidating value ([] ++ (M.peers n).map fun p => (p, true))) answers)
          (alone nodes' n (.put key value) (.writing value) answers) := fun nodes' =>
      .single (a := .resume 0) trivial (if_pos hall)
    have hwritten : ∀ nodes' : ν → DistributedCacheNode β,
        (alone nodes' n (.put key value) (.writing value) answers).writeMemory n key value =
          alone (Function.update nodes' n { nodes' n with
            memoryDb := (nodes' n).memoryDb.set key value }) n (.put key value) (.writing value)
              answers := by
      intro nodes'
      rw [Cluster.writeMemory, alone, ← setNode_nodes ⟨nodes', [], []⟩]
      rfl
    have hinstall : ∀ nodes' : ν → DistributedCacheNode β,
        Run (step M) anyAction (alone nodes' n (.put key value) (.writing value) answers)
          (answered (Function.update nodes' n (DistributedCacheNode.install { nodes' n with
            memoryDb := (nodes' n).memoryDb.set key value } key ⟨value, .M⟩)) n (.put key value)
              (.ok key) answers) := by
      intro nodes'
      have hrun := @run_install _ _ _ M (Function.update nodes' n { nodes' n with
        memoryDb := (nodes' n).memoryDb.set key value }) n (.put key value) (.writing value) answers
        ⟨value, .M⟩ (.ok key)
      rw [← hwritten, Function.update_idem, Function.update_self] at hrun
      exact (Run.single (a := .resume 0) trivial rfl).trans hrun
    simp only [handlePut, if_neg hkey]
    exact ((hbegin.trans htold).trans (hwriting _)).trans (hinstall _)

omit [DecidableEq ν] in
/-- The answers to a broadcast of internal reads. -/
theorem readAnswers_answered (peers : List ν) (answer : ν → Option β) :
    readAnswers (peers.map fun p => (p, ReadCall.answered (answer p))) =
      some (peers.map answer) := by
  rw [readAnswers, if_pos (by simp [ReadCall.answer?]), List.filterMap_map]
  simp [Function.comp_def, ReadCall.answer?, List.filterMap_eq_map']

/-- A get whose peers have found a value. -/
theorem run_found {calls : List (ν × ReadCall β)} {found : List (Option β)}
    (hanswers : readAnswers calls = some found) (hfound : found.findSome? id = some value) :
    Run (step M) anyAction (alone nodes n (.get key) (.reading calls) answers)
      (answered (Function.update nodes n ((nodes n).install key ⟨value, .S⟩)) n (.get key)
        (.value key value .S) answers) := by
  have hinstall := @run_install _ _ _ M nodes n (.get key) (.reading calls) answers ⟨value, .S⟩
    (.value key value .S)
  refine (Run.single (a := .resume 0) trivial ?_).trans hinstall
  simp only [step, alone, List.getElem?_cons_zero, hanswers, hfound]
  rfl

/-- A get whose peers have found nothing. -/
theorem run_notFound {calls : List (ν × ReadCall β)} {found : List (Option β)}
    (hanswers : readAnswers calls = some found) (hfound : found.findSome? id = none) :
    Run (step M) anyAction (alone nodes n (.get key) (.reading calls) answers)
      (alone nodes n (.get key) .fetching answers) := by
  refine .single (a := .resume 0) trivial ?_
  simp only [step, alone, List.getElem?_cons_zero, hanswers, hfound]
  rfl

/-- A get that is served alone. -/
theorem run_handleGet (nodes : ν → DistributedCacheNode β) (n : ν) (key : String)
    (answers : List (ν × Request β × Response β)) :
    Run (step M) anyAction ⟨nodes, [], answers⟩
      (answered (handleGet M (fun _ => false) everyone n key nodes).1 n (.get key)
        (handleGet M (fun _ => false) everyone n key nodes).2 answers) := by
  by_cases hkey : key = ""
  · refine .single (a := .get n key) trivial ?_
    simp only [step, handleGet, if_pos hkey]
    rfl
  · cases hget : ((nodes n).cache.get key).2 with
    | some found =>
        obtain ⟨o, entry⟩ := found
        have hpair : (nodes n).cache.get key = ((nodes n).cache.touch key, some (o, entry)) :=
          Prod.ext (LruCache.get_eq_some hget).2.2.2.2 hget
        refine .single (a := .get n key) trivial ?_
        simp only [step, handleGet, if_neg hkey, hpair]
        rw [Cluster.setCache, answered, ← setNode_nodes ⟨nodes, [], answers⟩]
        rfl
    | none =>
        have hpair : (nodes n).cache.get key = ((nodes n).cache, none) :=
          Prod.ext (LruCache.get_eq_none hget).1 hget
        have hbegin : Run (step M) anyAction ⟨nodes, [], answers⟩ (alone nodes n (.get key)
            (.reading ([] ++ (M.peers n).map fun p => (p, .sent))) answers) := by
          refine .single (a := .get n key) trivial ?_
          simp only [step, if_neg hkey, hpair]
          rfl
        have hasked := @run_broadcast _ _ _ M nodes n (.get key) answers _ .reading .sent
          (fun node => .answered (handleInternalRead node (M.queryKey key)).2)
          (fun node => (handleInternalRead node (M.queryKey key)).1)
          (fun nodes p before after => run_internalRead nodes p before after) _ (M.nodup n) []
        refine (hbegin.trans hasked).trans ?_
        have hanswers := readAnswers_answered (M.peers n)
          fun p => (handleInternalRead (nodes p) (M.queryKey key)).2
        have hdata : ((M.peers n).map fun p =>
            (handleInternalRead (nodes p) (M.queryKey key)).2).findSome? id =
              peerData M everyone n key nodes := by
          rw [List.findSome?_map]
          rfl
        have hnotNull : ∀ found : Option β, (found.filter fun _ => true) = found := fun found => by
          cases found <;> rfl
        simp only [handleGet, if_neg hkey, hpair, Bool.not_false, hnotNull, List.nil_append]
        generalize broadcast (M.peers n) everyone
          (fun node => (handleInternalRead node (M.queryKey key)).1) nodes = asked
        cases hfound : peerData M everyone n key nodes with
        | some value => exact run_found hanswers (hdata.trans hfound)
        | none =>
            refine (run_notFound hanswers (hdata.trans hfound)).trans ?_
            cases hmemory : (asked n).memoryDb.get? key with
            | none =>
                refine .single (a := .resume 0) trivial ?_
                simp only [step, alone, List.getElem?_cons_zero, Request.key, hmemory]
                rfl
            | some value =>
                refine (Run.single (a := .resume 0) trivial ?_).trans (run_install asked n
                  (.get key) .fetching answers ⟨value, .E⟩ (.value key value .E))
                simp only [step, alone, List.getElem?_cons_zero, Request.key, hmemory]

/-- A request that is served alone. -/
theorem exists_run_serve (nodes : ν → DistributedCacheNode β) {call : Call ν β}
    (hreached : call.reached = everyone) (answers : List (ν × Request β × Response β)) :
    ∃ response, Run (step M) anyAction ⟨nodes, [], answers⟩
      (answered (serve M (fun _ => false) nodes call) call.node call.request response answers) := by
  obtain ⟨reached, n, request⟩ := call
  obtain rfl : reached = everyone := hreached
  cases request with
  | get key => exact ⟨_, run_handleGet nodes n key answers⟩
  | put key value => exact ⟨_, run_handlePut nodes n key value answers⟩

/-- **Requests one after another are a run from the start**, in which they are answered in their
order. -/
theorem exists_run_calls {calls : List (Call ν β)}
    (hreached : ∀ call ∈ calls, call.reached = everyone) :
    ∃ s, Run (step M) anyAction (initial M) s ∧ s.handlers = [] ∧
      s.nodes = calls.foldl (serve M fun _ => false) (started M.capacity) ∧
      s.answers.map (fun answer => (answer.1, answer.2.1)) =
        calls.map fun call => (call.node, call.request) := by
  induction calls using List.reverseRecOn with
  | nil => exact ⟨initial M, .refl _, rfl, rfl, rfl⟩
  | append_singleton calls call ih =>
      obtain ⟨s, hrun, hidle, hnodes, hanswers⟩ :=
        ih fun call hcall => hreached call (List.mem_append_left _ hcall)
      obtain ⟨response, hserve⟩ := exists_run_serve (M := M) s.nodes
        (hreached call (List.mem_append_right _ (List.mem_singleton_self call))) s.answers
      have hs : (⟨s.nodes, [], s.answers⟩ : Cluster ν β) = s := by rw [← hidle]
      rw [hs] at hserve
      refine ⟨_, hrun.trans hserve, rfl, ?_, ?_⟩
      · rw [List.foldl_append, ← hnodes]
        rfl
      · rw [answered, List.map_append, List.map_append, hanswers]
        rfl

end CacheNode
