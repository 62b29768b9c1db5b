/-
**The running handlers.**

What is true of every handler of the cluster, whatever runs beside it: it waits at a place of its
own request, and an object that is written back for it exists and belongs to the key that was asked
for, unless it has left the cache.  So a handler never waits for nothing, and its own steps bring
it to its answer.

Main definitions:

* `CacheNode.Handler.apt` — the handler waits at a place of its request;
* `CacheNode.Sound` — what is true of every running handler;
* `CacheNode.Attends` — the steps of one handler.

Main results:

* `CacheNode.sound_run` — **it is true in every state of a run**;
* `CacheNode.exists_answered` — **every handler can be run to its answer**.
-/

import DistSync.CacheMoves
import DistSync.CacheSequential

set_option relaxedAutoImplicit false
set_option autoImplicit false

namespace CacheNode

open Runs

variable {ν β : Type*}

section Invariants

variable {M : Setup ν} {s s' : Cluster ν β} {a : Action ν β} {n p : ν} {key : String} {v w : β}
  {h : Handler ν β} {i o : ℕ}

/-! ### What is true of every handler -/

/-- The place at which a handler waits is one of its request. -/
def Handler.apt (M : Setup ν) (h : Handler ν β) : Prop :=
  match h.stage, h.request with
  | .reading _, .get _ => True
  | .fetching, .get _ => True
  | .invalidating v calls, .put _ w => v = w ∧ calls.map Prod.fst = M.peers h.node
  | .writing v, .put _ w => v = w
  | .evicting _ _ (.value key _ _), .get key' => key = key'
  | .evicting _ _ (.ok key), .put key' _ => key = key'
  | _, _ => False

/-- An object of a node exists, and belongs to the key that was asked for, if it still belongs to a
key. -/
structure Owned (s : Cluster ν β) (p : ν) (o : ℕ) (q : Option String) : Prop where
  asked : ∃ key, q = some key
  object : ∃ e, (s.nodes p).cache.objects[o]? = some e
  owner : ∀ key, (s.nodes p).cache.entries.get? key = some o → q = some key

theorem Owned.keep {q : Option String} (hown : Owned s p o q)
    (hkeeps : LruCache.Keeps (s.nodes p).cache (s'.nodes p).cache) : Owned s' p o q := by
  obtain ⟨e, he⟩ := hown.object
  obtain ⟨e', he', -⟩ := hkeeps.value o e he
  refine ⟨hown.asked, ⟨e', he'⟩, fun key hkey => hown.owner key ?_⟩
  exact hkeeps.entries key o (List.getElem?_eq_some_iff.1 he).1 hkey

/-- **What is true of every running handler.** -/
structure Sound (M : Setup ν) (s : Cluster ν β) : Prop where
  apt : ∀ h ∈ s.handlers, h.apt M
  owned : ∀ h ∈ s.handlers, ∀ p o, h.writingBack p o → Owned s p o (M.queryKey h.request.key)

theorem isPut_of_apt_reading {calls : List (ν × ReadCall β)} (hapt : h.apt M)
    (hstage : h.stage = .reading calls) : h.isPut = false := by
  obtain ⟨n, request, stage⟩ := h
  subst hstage
  cases request with
  | get key => rfl
  | put key value => exact hapt.elim

theorem isPut_of_apt_fetching (hapt : h.apt M) (hstage : h.stage = .fetching) :
    h.isPut = false := by
  obtain ⟨n, request, stage⟩ := h
  subst hstage
  cases request with
  | get key => rfl
  | put key value => exact hapt.elim

theorem request_of_apt_writing (hapt : h.apt M) (hstage : h.stage = .writing w) :
    h.request = .put h.request.key w := by
  obtain ⟨n, request, stage⟩ := h
  subst hstage
  cases request with
  | get key => exact hapt.elim
  | put key value =>
      obtain rfl : w = value := hapt
      rfl

theorem request_of_apt_invalidating {calls : List (ν × Bool)} (hapt : h.apt M)
    (hstage : h.stage = .invalidating w calls) :
    h.request = .put h.request.key w ∧ calls.map Prod.fst = M.peers h.node := by
  obtain ⟨n, request, stage⟩ := h
  subst hstage
  cases request with
  | get key => exact hapt.elim
  | put key value =>
      obtain ⟨rfl, hpeers⟩ := hapt
      exact ⟨rfl, hpeers⟩

/-- A peer writes back what it finds under the key. -/
theorem internalRead_writingBack {c : LruCache β} {q : Option String}
    (hread : (internalRead c q).2 = .writingBack o) :
    ∃ key e, q = some key ∧ c.entries.get? key = some o ∧ c.objects[o]? = some e ∧
      c.copy key = some e ∧ e.state ≠ .I := by
  cases q with
  | none => cases hread
  | some key =>
      rcases internalRead_cases c key with ⟨-, heq⟩ | ⟨o', e, hentry, hobject, hcopy, hM, heq⟩ |
        ⟨o', e, -, -, -, heq⟩ | ⟨e, -, -, heq⟩ <;> rw [heq] at hread <;> cases hread
      exact ⟨key, e, rfl, hentry, hobject, hcopy, by rw [hM]; simp⟩

/-- A peer answers with what it finds under the key. -/
theorem internalRead_answered {c : LruCache β} {q : Option String}
    (hread : (internalRead c q).2 = .answered (some w)) :
    ∃ key e, q = some key ∧ c.copy key = some e ∧ e.state ≠ .I ∧ e.value = w := by
  cases q with
  | none => cases hread
  | some key =>
      rcases internalRead_cases c key with ⟨-, heq⟩ | ⟨o', e, -, -, -, -, heq⟩ |
        ⟨o', e, -, hcopy, hE, heq⟩ | ⟨e, hcopy, hS, heq⟩ <;> rw [heq] at hread <;> cases hread
      · exact ⟨key, e, rfl, hcopy, by rw [hE]; simp, rfl⟩
      · exact ⟨key, e, rfl, hcopy, by rw [hS]; simp, rfl⟩

theorem apt_reading {calls : List (ν × ReadCall β)} (hget : h.isPut = false) :
    { h with stage := .reading calls : Handler ν β }.apt M := by
  obtain ⟨n, request, stage⟩ := h
  cases request with
  | get key => trivial
  | put key value => cases hget

theorem apt_fetching (hget : h.isPut = false) :
    { h with stage := .fetching : Handler ν β }.apt M := by
  obtain ⟨n, request, stage⟩ := h
  cases request with
  | get key => trivial
  | put key value => cases hget

theorem apt_invalidating {calls : List (ν × Bool)} (hrequest : h.request = .put key w)
    (hpeers : calls.map Prod.fst = M.peers h.node) :
    { h with stage := .invalidating w calls : Handler ν β }.apt M := by
  obtain ⟨n, request, stage⟩ := h
  subst hrequest
  exact ⟨rfl, hpeers⟩

theorem apt_writing (hrequest : h.request = .put key w) :
    { h with stage := .writing w : Handler ν β }.apt M := by
  obtain ⟨n, request, stage⟩ := h
  subst hrequest
  rfl

theorem sound_initial : Sound M (initial M : Cluster ν β) :=
  ⟨fun _ hmem => absurd hmem List.not_mem_nil, fun _ hmem => absurd hmem List.not_mem_nil⟩

variable [DecidableEq ν]

omit [DecidableEq ν] in
/-- A handler that installs its entry will answer its request. -/
theorem apt_evicting {entry : CacheEntry β} {response : Response β} {value : β}
    (hinstalls : Installs s a h entry response) (hapt : h.apt M) :
    { h with stage := .evicting key value response : Handler ν β }.apt M := by
  obtain ⟨n, request, stage⟩ := h
  cases hinstalls with
  | found hi hstage =>
      cases request with
      | get key => rfl
      | put key w => cases isPut_of_apt_reading hapt hstage
  | fetched hi hstage =>
      cases request with
      | get key => rfl
      | put key w => cases isPut_of_apt_fetching hapt hstage
  | written hi hstage =>
      cases request with
      | get key => cases request_of_apt_writing hapt hstage
      | put key w => rfl

/-- **A step keeps what is true of every handler.** -/
theorem Sound.step (hS : Sound M s) (hmove : Moves M s a s') : Sound M s' := by
  have hkeeps := keeps_of_moves hmove
  have hapt : ∀ {i : ℕ} {h : Handler ν β}, s.handlers[i]? = some h → h.apt M :=
    fun hi => hS.apt _ (List.mem_of_getElem? hi)
  refine ⟨fun h hmem => ?_, fun h hmem p o hback => ?_⟩
  · cases follows_of_moves hmove h hmem with
    | same hold => exact hS.apt h hold
    | get => trivial
    | put => exact ⟨rfl, by rw [List.map_map]; exact List.map_id _⟩
    | read hi hstage => exact apt_reading (isPut_of_apt_reading (hapt hi) hstage)
    | readBack hi hstage => exact apt_reading (isPut_of_apt_reading (hapt hi) hstage)
    | invalidate ha hi hstage hj =>
        obtain ⟨hrequest, hpeers⟩ := request_of_apt_invalidating (hapt hi) hstage
        exact apt_invalidating hrequest ((map_fst_set hj).trans hpeers)
    | fetch hi hstage => exact apt_fetching (isPut_of_apt_reading (hapt hi) hstage)
    | write hi hstage => exact apt_writing (request_of_apt_invalidating (hapt hi) hstage).1
    | evict hold hinstalls => exact apt_evicting hinstalls (hS.apt _ hold)
  · have hold : ∀ (h : Handler ν β) (calls : List (ν × ReadCall β)), h ∈ s.handlers →
        h.stage = .reading calls → (p, .writingBack o) ∈ calls →
          Owned s' p o (M.queryKey h.request.key) :=
      fun h calls hmem hstage hcall => (hS.owned h hmem p o ⟨calls, hstage, hcall⟩).keep (hkeeps p)
    obtain ⟨calls', hreading, hcall⟩ := hback
    cases follows_of_moves hmove h hmem with
    | same hmem => exact hold h calls' hmem hreading hcall
    | get => cases eq_sent_of_mem hreading hcall
    | put => cases hreading
    | @read i j h₁ calls peer hi hstage hj =>
        cases hreading
        rcases List.mem_or_eq_of_mem_set hcall with hcall | heq
        · exact hold h₁ calls (List.mem_of_getElem? hi) hstage hcall
        · -- the object that the peer has just found under the key
          obtain ⟨rfl, hread⟩ := Prod.mk.inj heq
          obtain ⟨key, e, hquery, hentry, hobject, -⟩ := internalRead_writingBack hread.symm
          refine Owned.keep ⟨⟨key, hquery⟩, ⟨e, hobject⟩, fun key' hkey' => ?_⟩ (hkeeps p)
          rw [(s.nodes p).cache.owner key' key o hkey' hentry]
          exact hquery
    | @readBack i j h₁ calls peer o' entry hi hstage hj =>
        cases hreading
        rcases List.mem_or_eq_of_mem_set hcall with hcall | heq
        · exact hold h₁ calls (List.mem_of_getElem? hi) hstage hcall
        · cases (Prod.mk.inj heq).2
    | invalidate => cases hreading
    | fetch => cases hreading
    | write => cases hreading
    | evict => cases hreading

theorem sound_run {ok : Cluster ν β → Action ν β → Prop} (hS : Sound M s)
    (hrun : Run (step M) ok s s') : Sound M s' :=
  hrun.invariant (fun _ _ _ hS _ hstep => hS.step (moves_of_step hstep)) hS

/-! ### The steps of one handler -/

/-- A step of the handler at position `i`, which serves the request at the node `n`. -/
def Attends (n : ν) (request : Request β) (i : ℕ) (s : Cluster ν β) (a : Action ν β) : Prop :=
  ((∃ j, a = .internalRead i j) ∨ (∃ j, a = .internalReadDone i j) ∨
    (∃ j, a = .internalInvalidate i j) ∨ a = .resume i) ∧
      ∃ h, s.handlers[i]? = some h ∧ h.node = n ∧ h.request = request

/-- The handler at position `i` has gone on, or has given its answer. -/
def Gone (s : Cluster ν β) (i : ℕ) (h : Handler ν β) (s' : Cluster ν β) : Prop :=
  (∃ stage, s'.handlers[i]? = some { h with stage := stage } ∧
    { h with stage := stage : Handler ν β }.work < h.work ∧ s'.answers = s.answers) ∨
  ∃ response, s'.answers = s.answers ++ [(h.node, h.request, response)]

omit [DecidableEq ν] in
theorem getElem?_setStage {t : Cluster ν β} {stage : Stage ν β} (hi : t.handlers[i]? = some h) :
    (t.setStage i stage).handlers[i]? = some { h with stage := stage } := by
  simp only [Cluster.setStage, List.getElem?_modify, if_pos, hi]
  rfl

omit [DecidableEq ν] in
theorem gone_setStage {t : Cluster ν β} {stage : Stage ν β} (hhandlers : t.handlers = s.handlers)
    (hanswers : t.answers = s.answers) (hi : s.handlers[i]? = some h)
    (hless : { h with stage := stage : Handler ν β }.work < h.work) :
    Gone s i h (t.setStage i stage) :=
  .inl ⟨stage, getElem?_setStage (hhandlers ▸ hi), hless, hanswers⟩

omit [DecidableEq ν] in
theorem gone_finish {t : Cluster ν β} {response : Response β} (hanswers : t.answers = s.answers) :
    Gone s i h (t.finish i h response) :=
  .inr ⟨response, congrArg (· ++ _) hanswers⟩

theorem gone_install {t : Cluster ν β} {entry : CacheEntry β} {response : Response β}
    (hhandlers : t.handlers = s.handlers) (hanswers : t.answers = s.answers)
    (hi : s.handlers[i]? = some h) (hwork : 2 < h.work) :
    Gone s i h (t.install i h entry response) := by
  unfold Cluster.install
  simp only
  split
  · exact gone_finish hanswers
  · split
    · exact gone_setStage hhandlers hanswers hi hwork
    · exact gone_finish hanswers

omit [DecidableEq ν] in
theorem readAnswers_of_all {calls : List (ν × ReadCall β)}
    (hall : ∀ call ∈ calls, ∃ answer, call.2 = .answered answer) :
    ∃ answers, readAnswers calls = some answers := by
  refine ⟨_, if_pos (List.all_eq_true.2 fun call hcall => ?_)⟩
  obtain ⟨answer, heq⟩ := hall call hcall
  rw [heq]
  rfl

/-- A handler that reads goes on, whatever its calls have come to. -/
theorem gone_reading {calls : List (ν × ReadCall β)} (hS : Sound M s)
    (hi : s.handlers[i]? = some h) (hstage : h.stage = .reading calls) :
    ∃ a s', Attends h.node h.request i s a ∧ step M s a = some s' ∧ Gone s i h s' := by
  obtain ⟨n, request, stage⟩ := h
  subst hstage
  by_cases hsent : ∃ p, (p, .sent) ∈ calls
  · -- a peer serves a call
    obtain ⟨p, hp⟩ := hsent
    obtain ⟨j, hj⟩ := List.mem_iff_getElem?.1 hp
    refine ⟨.internalRead i j, _, ⟨.inl ⟨j, rfl⟩, _, hi, rfl, rfl⟩, by
      simp only [step, hi, hj]; rfl, ?_⟩
    refine gone_setStage rfl rfl hi ?_
    have hcall := work_internalRead (s.nodes p).cache (M.queryKey request.key)
    exact Nat.add_lt_add_left (sum_map_set_lt (f := fun call : ν × ReadCall β => call.2.work) hj
      (Nat.lt_succ_of_le hcall)) 4
  · by_cases hback : ∃ p o, (p, .writingBack o) ∈ calls
    · -- a peer ends its write-back
      obtain ⟨p, o, hp⟩ := hback
      obtain ⟨j, hj⟩ := List.mem_iff_getElem?.1 hp
      have hown := hS.owned _ (List.mem_of_getElem? hi) p o ⟨calls, rfl, hp⟩
      obtain ⟨key, hquery⟩ := hown.asked
      obtain ⟨e, he⟩ := hown.object
      refine ⟨.internalReadDone i j, _, ⟨.inr (.inl ⟨j, rfl⟩), _, hi, rfl, rfl⟩, by
        simp only [step, hi, hj, hquery, he]; rfl, ?_⟩
      refine gone_setStage rfl rfl hi ?_
      exact Nat.add_lt_add_left (sum_map_set_lt (f := fun call : ν × ReadCall β => call.2.work)
        (y := (p, .answered (some e.value))) hj Nat.zero_lt_one) 4
    · obtain ⟨answers, hanswers⟩ := @readAnswers_of_all _ _ calls fun call hcall => by
        obtain ⟨p, call⟩ := call
        cases call with
        | sent => exact absurd ⟨p, hcall⟩ hsent
        | writingBack o => exact absurd ⟨p, o, hcall⟩ hback
        | answered value => exact ⟨value, rfl⟩
      have hattends : Attends n request i s (.resume i) :=
        ⟨.inr (.inr (.inr rfl)), _, hi, rfl, rfl⟩
      cases hfound : answers.findSome? id with
      | none =>
          refine ⟨.resume i, _, hattends, by simp only [step, hi, hanswers, hfound]; rfl,
            gone_setStage rfl rfl hi ?_⟩
          simp only [Handler.work]
          omega
      | some value =>
          refine ⟨.resume i, _, hattends, by simp only [step, hi, hanswers, hfound]; rfl,
            gone_install rfl rfl hi ?_⟩
          simp only [Handler.work]
          omega

/-- **A handler always has a step of its own.** -/
theorem exists_gone (hS : Sound M s) (hi : s.handlers[i]? = some h) :
    ∃ a s', Attends h.node h.request i s a ∧ step M s a = some s' ∧ Gone s i h s' := by
  cases hstage : h.stage with
  | reading calls => exact gone_reading hS hi hstage
  | fetching =>
      obtain ⟨n, request, stage⟩ := h
      subst hstage
      have hattends : Attends n request i s (.resume i) :=
        ⟨.inr (.inr (.inr rfl)), _, hi, rfl, rfl⟩
      cases hmemory : (s.nodes n).memoryDb.get? request.key with
      | none =>
          exact ⟨.resume i, _, hattends, by simp only [step, hi, hmemory]; rfl, gone_finish rfl⟩
      | some value =>
          exact ⟨.resume i, _, hattends, by simp only [step, hi, hmemory]; rfl,
            gone_install rfl rfl hi (Nat.lt_succ_self 2)⟩
  | invalidating value calls =>
      obtain ⟨n, request, stage⟩ := h
      subst hstage
      by_cases hall : calls.all (·.2) = true
      · refine ⟨.resume i, _, ⟨.inr (.inr (.inr rfl)), _, hi, rfl, rfl⟩, by
          simp only [step, hi, if_pos hall]; rfl, gone_setStage rfl rfl hi ?_⟩
        simp only [Handler.work]
        omega
      · have hfalse : ∃ p, (p, false) ∈ calls := by simpa using hall
        obtain ⟨p, hp⟩ := hfalse
        obtain ⟨j, hj⟩ := List.mem_iff_getElem?.1 hp
        refine ⟨.internalInvalidate i j, _, ⟨.inr (.inr (.inl ⟨j, rfl⟩)), _, hi, rfl, rfl⟩, by
          simp only [step, hi, hj]; rfl, ?_⟩
        refine gone_setStage rfl rfl hi ?_
        exact Nat.add_lt_add_left (sum_map_set_lt
          (f := fun call : ν × Bool => if call.2 then 0 else 1) (y := (p, true)) hj
          Nat.zero_lt_one) 4
  | writing value =>
      obtain ⟨n, request, stage⟩ := h
      subst hstage
      refine ⟨.resume i, _, ⟨.inr (.inr (.inr rfl)), _, hi, rfl, rfl⟩, by
        simp only [step, hi]; rfl, ?_⟩
      exact gone_install rfl rfl hi (Nat.lt_succ_self 2)
  | evicting key value response =>
      obtain ⟨n, request, stage⟩ := h
      subst hstage
      refine ⟨.resume i, _, ⟨.inr (.inr (.inr rfl)), _, hi, rfl, rfl⟩, by
        simp only [step, hi]; rfl, ?_⟩
      exact gone_finish rfl

/-- **Every handler can be run to its answer**, by steps of its own. -/
theorem exists_answered (hS : Sound M s) (hi : s.handlers[i]? = some h) :
    ∃ s' response, Run (step M) (Attends h.node h.request i) s s' ∧
      s'.answers = s.answers ++ [(h.node, h.request, response)] := by
  -- the induction is on the steps that the handler still needs
  induction hwork : h.work using Nat.strongRecOn generalizing s h with
  | _ left ih =>
      obtain ⟨a, s₁, hok, hstep, hgone⟩ := exists_gone hS hi
      rcases hgone with ⟨stage, hi₁, hless, hanswers₁⟩ | ⟨response, hanswers⟩
      · obtain ⟨s', response, hrun, hanswers⟩ :=
          ih _ (hwork ▸ hless) (hS.step (moves_of_step hstep)) hi₁ rfl
        exact ⟨s', response, (Run.single hok hstep).trans hrun, hanswers₁ ▸ hanswers⟩
      · exact ⟨s₁, response, .single hok hstep, hanswers⟩

end Invariants

end CacheNode
