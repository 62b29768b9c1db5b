/-
**Coherence of the caches.**

The remaining steps preserve the invariant: an invalidation, the installation of an entry, which no
other handler of the key may see, and the end of a handler.  All keys are coherent in the runs of
`CacheNode.Undisturbed` requests; when two nodes put a key at the same time, both may end with a
modified entry.

Main results:

* `CacheNode.inv_run` — the invariant in every run of this kind;
* `CacheNode.coherence` — **all keys are coherent**;
* `CacheNode.coherence_fails` — two puts that overlap.
-/

import DistSync.CacheReads

set_option relaxedAutoImplicit false
set_option autoImplicit false

namespace CacheNode

open Runs

variable {ν β : Type*}

section Steps

variable [DecidableEq ν] {M : Setup ν} {s s' : Cluster ν β} {i j : ℕ} {h : Handler ν β}
  {p : ν} {cache : LruCache β}


/-! ### Invalidations -/

omit [DecidableEq ν] in
theorem isPut_of_invalidating {value : β} {calls : List (ν × Bool)} (hfits : h.fits M)
    (hstage : h.stage = .invalidating value calls) : h.isPut = true ∧ h.unfinished = true ∧
      calls.map Prod.fst = M.peers h.node := by
  obtain ⟨n, request, stage⟩ := h
  subst hstage
  cases request with
  | get key => exact hfits.elim
  | put key value' => exact ⟨rfl, rfl, hfits.2⟩

omit [DecidableEq ν] in
theorem isGet_of_reading {calls : List (ν × ReadCall β)} (hfits : h.fits M)
    (hstage : h.stage = .reading calls) :
    h.isPut = false ∧ calls.map Prod.fst = M.peers h.node := by
  obtain ⟨n, request, stage⟩ := h
  subst hstage
  cases request with
  | put key value => exact hfits.elim
  | get key => exact ⟨rfl, hfits.1⟩

/-- An internal invalidation is served. -/
theorem Inv.internalInvalidate {value : β} {calls : List (ν × Bool)} (hI : Inv M s)
    (hi : s.handlers[i]? = some h) (hstage : h.stage = .invalidating value calls)
    (hj : calls[j]? = some (p, false)) :
    Inv M ((s.setCache p ((s.nodes p).cache.invalidate h.request.key)).setStage i
      (.invalidating value (calls.set j (p, true)))) := by
  have hmem : h ∈ s.handlers := List.mem_of_getElem? hi
  obtain ⟨hput, hopen, hpeers⟩ := isPut_of_invalidating (hI.fits h hmem) hstage
  generalize hs' : (s.setCache p ((s.nodes p).cache.invalidate h.request.key)).setStage i
    (.invalidating value (calls.set j (p, true))) = s'
  have hcache : ∀ q, (s'.nodes q).cache =
      if q = p then (s.nodes p).cache.invalidate h.request.key else (s.nodes q).cache := by
    intro q
    rw [← hs', cache_setCall]
  have hweak : ∀ key q, LruCache.Weakens key (s.nodes q).cache (s'.nodes q).cache :=
    fun key => forall_cache (LruCache.Weakens.refl key) hcache (LruCache.weakens_invalidate _ _ _)
  have hkeeps := forall_cache LruCache.Keeps.refl hcache
    (LruCache.keeps_invalidate (s.nodes p).cache h.request.key)
  -- no read of this key is writing back at another node
  have hspares : ∀ h₂ ∈ s.handlers, ∀ q o, q ≠ h₂.node → h₂.writingBack q o →
      LruCache.Spares h₂.request.key (s.nodes q).cache (s'.nodes q).cache := by
    intro h₂ hmem₂ q o hq hback
    by_cases hkey : h₂.request.key = h.request.key
    · obtain ⟨calls₂, hstage₂, -⟩ := id hback
      have hopen₂ := unfinished_of_reading hstage₂
      have hget := (isGet_of_reading (hI.fits h₂ hmem₂) hstage₂).1
      have hhome := hI.home h hmem h₂ hmem₂ hopen hopen₂ hkey.symm
      have hq' := (hI.mixed h hmem h₂ hmem₂ hopen hopen₂ hkey.symm hput hget).2 q o hback
      exact absurd (hq'.trans hhome) hq
    · exact forall_cache (LruCache.Spares.refl h₂.request.key) hcache
        (LruCache.spares_invalidate hkey) q
  refine hI.advance (fun h' hmem' => ?_) (fun h₂ _ _ q _ => hweak _ q) hkeeps hspares
    fun key => (hI.coherent key).weaken (hweak key)
  rw [← hs'] at hmem'
  rcases mem_setStage hmem' with hold | ⟨h₂, hi₂, rfl⟩
  · exact .inl hold
  · have heq : h₂ = h := Option.some.inj (hi₂.symm.trans hi)
    subst heq
    refine .inr ⟨h₂, hmem, rfl, rfl, fun _ => hopen, fun q o hq => ?_, ?_, ?_⟩
    · obtain ⟨calls', hcalls', -⟩ := hq
      cases hcalls'
    · have hfits := hI.fits h₂ hmem
      obtain ⟨n, request, stage⟩ := h₂
      subst hstage
      cases request with
      | get key => exact hfits.elim
      | put key value' => exact ⟨hfits.1, (map_fst_set hj).trans hfits.2⟩
    · have hsettled : Settled s' h₂ := (hI.settled h₂ hmem).mono (fun q _ => hweak _ q) hkeeps
        fun q o => hspares h₂ hmem q o
      constructor
      · intro calls' p' hstage'
        cases hstage'
      · intro calls' p' v hstage'
        cases hstage'
      · rintro p' o ⟨calls', hstage', -⟩
        cases hstage'
      · intro v calls' p' hstage' hmem hp
        cases hstage'
        rcases List.mem_or_eq_of_mem_set hmem with hmem | heq
        · exact hsettled.invalidated value calls p' hstage hmem hp
        · cases heq
          intro e he
          have hcopy := he.1
          rw [hcache, if_pos rfl] at hcopy
          exact he.2 (LruCache.copy_invalidate_self hcopy)
      · rintro (hstage' | ⟨v, hstage'⟩) <;> cases hstage'

/-! ### Handlers go on -/

omit [DecidableEq ν] in
/-- A handler goes on to wait for the memory, when it knows that no other node holds its key. -/
theorem Inv.setStage {stage : Stage ν β} (hI : Inv M s) (hi : s.handlers[i]? = some h)
    (hopen : h.unfinished = true) (hstage : stage = .fetching ∨ ∃ v, stage = .writing v)
    (hfits : { h with stage := stage : Handler ν β }.fits M)
    (halone : ∀ q, q ≠ h.node → NoCopy s q h.request.key) : Inv M (s.setStage i stage) := by
  have hmem : h ∈ s.handlers := List.mem_of_getElem? hi
  refine hI.advance (fun h' hmem' => ?_) (fun _ _ _ q _ => .refl _ _) (fun q => .refl _)
    (fun _ _ q _ _ _ => .refl _ _) fun key => (hI.coherent key).of_nodes rfl
  rcases mem_setStage hmem' with hold | ⟨h₂, hi₂, rfl⟩
  · exact .inl hold
  · have heq : h₂ = h := Option.some.inj (hi₂.symm.trans hi)
    subst heq
    have hnot : ∀ calls, stage ≠ .reading calls := by
      rintro calls rfl
      rcases hstage with hstage | ⟨v, hstage⟩ <;> cases hstage
    refine .inr ⟨h₂, hmem, rfl, rfl, fun _ => hopen, ?_, hfits, ?_⟩
    · rintro q o ⟨calls, hcalls, -⟩
      exact absurd hcalls (hnot calls)
    · constructor
      · intro calls p' hreading
        exact absurd hreading (hnot calls)
      · intro calls p' v hreading
        exact absurd hreading (hnot calls)
      · rintro p' o ⟨calls, hreading, -⟩
        exact absurd hreading (hnot calls)
      · intro v calls p' hinvalidating
        rcases hstage with hstage | ⟨v', hstage⟩ <;> rw [hstage] at hinvalidating <;>
          cases hinvalidating
      · intro _
        exact halone

/-- An entry is read in the local cache. -/
theorem Inv.hit {n : ν} {key : String} (hI : Inv M s)
    (hcache : ∀ q, (s'.nodes q).cache =
      if q = n then (s.nodes n).cache.touch key else (s.nodes q).cache)
    (hhandlers : s'.handlers = s.handlers) : Inv M s' := by
  have hweak : ∀ key', ∀ q, LruCache.Weakens key' (s.nodes q).cache (s'.nodes q).cache :=
    fun key' => forall_cache (LruCache.Weakens.refl key') hcache LruCache.weakens_touch
  have hkeeps := forall_cache LruCache.Keeps.refl hcache LruCache.keeps_touch
  have hspares : ∀ key', ∀ q, LruCache.Spares key' (s.nodes q).cache (s'.nodes q).cache :=
    fun key' => forall_cache (LruCache.Spares.refl key') hcache LruCache.spares_touch
  refine hI.advance (fun h' hmem => ?_) (fun _ _ _ q _ => hweak _ q) hkeeps
    (fun _ _ q _ _ _ => hspares _ q) fun key' => (hI.coherent key').weaken (hweak key')
  rw [hhandlers] at hmem
  exact .inl hmem

omit [DecidableEq ν] in
/-- A handler ends. -/
theorem Inv.finish (hI : Inv M s) (hcache : ∀ q, (s'.nodes q).cache = (s.nodes q).cache)
    (hhandlers : ∀ h' ∈ s'.handlers, h' ∈ s.handlers) : Inv M s' := by
  refine hI.advance (fun h' hmem' => .inl (hhandlers h' hmem')) (fun _ _ _ q _ => ?_) (fun q => ?_)
    (fun _ _ q _ _ _ => ?_) fun key => (hI.coherent key).weaken fun q => ?_
  · rw [hcache]
    exact .refl _ _
  · rw [hcache]
    exact .refl _
  · rw [hcache]
    exact .refl _ _
  · rw [hcache]
    exact .refl _ _

/-- A handler installs its entry. -/
theorem Inv.install {entry : CacheEntry β} (hI : Inv M s) (hmem : h ∈ s.handlers)
    (hopen : h.unfinished = true)
    (hcache : ∀ q, (s'.nodes q).cache = if q = h.node then
      ((s.nodes h.node).cache.put h.request.key entry).1 else (s.nodes q).cache)
    (hhandlers : ∀ h' ∈ s'.handlers, h' ∈ s.handlers ∨ ∃ key value response,
      h' = { h with stage := .evicting key value response })
    (hcoherent : Coherent s' h.request.key) : Inv M s' := by
  have hweak : ∀ key, key ≠ h.request.key → ∀ q,
      LruCache.Weakens key (s.nodes q).cache (s'.nodes q).cache :=
    fun key hkey => forall_cache (LruCache.Weakens.refl key) hcache
      (LruCache.weakens_put hkey entry)
  have hspares : ∀ key, key ≠ h.request.key → ∀ q,
      LruCache.Spares key (s.nodes q).cache (s'.nodes q).cache :=
    fun key hkey => forall_cache (LruCache.Spares.refl key) hcache (LruCache.spares_put hkey entry)
  have hkeeps := forall_cache LruCache.Keeps.refl hcache
    (LruCache.keeps_put (s.nodes h.node).cache h.request.key entry)
  refine hI.advance (fun h' hmem' => ?_) (fun h₂ hmem₂ hopen₂ q hq => ?_) hkeeps
    (fun h₂ hmem₂ q o hq hback => ?_) fun key => ?_
  · rcases hhandlers h' hmem' with hold | ⟨key, value, response, rfl⟩
    · exact .inl hold
    · refine .inr ⟨h, hmem, rfl, rfl, fun _ => hopen, ?_, trivial, settled_of_finished rfl⟩
      rintro q o ⟨calls, hcalls, -⟩
      cases hcalls
  · by_cases hqn : q = h.node
    · rw [hqn] at hq
      exact hweak _ (hI.key_ne hmem hmem₂ hopen hopen₂ hq) q
    · rw [hcache, if_neg hqn]
      exact .refl _ _
  · by_cases hqn : q = h.node
    · obtain ⟨calls, hstage, -⟩ := hback
      rw [hqn] at hq
      exact hspares _ (hI.key_ne hmem hmem₂ hopen (unfinished_of_reading hstage) hq) q
    · rw [hcache, if_neg hqn]
      exact .refl _ _
  · by_cases hkey : key = h.request.key
    · rw [hkey]
      exact hcoherent
    · exact (hI.coherent key).weaken (hweak key hkey)

/-! ### What is installed -/

omit [DecidableEq ν] in
theorem readAnswers_eq_some {calls : List (ν × ReadCall β)} {answers : List (Option β)}
    (h : readAnswers calls = some answers) :
    (∀ p call, (p, call) ∈ calls → ∃ answer ∈ answers, call = .answered answer) ∧
    ∀ answer ∈ answers, ∃ p, (p, .answered answer) ∈ calls := by
  have hanswer : ∀ (call : ReadCall β) answer, call.answer? = some answer →
      call = .answered answer := by
    intro call answer hcall
    cases call with
    | sent => cases hcall
    | writingBack o => cases hcall
    | answered value =>
        cases hcall
        rfl
  unfold readAnswers at h
  split at h
  · next hall =>
      cases h
      constructor
      · intro p call hmem
        obtain ⟨answer, hcall⟩ := Option.isSome_iff_exists.1 (List.all_eq_true.1 hall _ hmem)
        exact ⟨answer, List.mem_filterMap.2 ⟨_, hmem, hcall⟩, hanswer call answer hcall⟩
      · intro answer hmem
        obtain ⟨⟨p, call⟩, hmem, hcall⟩ := List.mem_filterMap.1 hmem
        rw [hanswer call answer hcall] at hmem
        exact ⟨p, hmem⟩
  · cases h

omit [DecidableEq ν] in
/-- Every other node is among the peers that were asked. -/
theorem mem_calls {α : Type*} {calls : List (ν × α)} {n q : ν}
    (hpeers : calls.map Prod.fst = M.peers n) (hq : q ≠ n) : ∃ call, (q, call) ∈ calls := by
  have hmem := M.all_peers n q hq
  rw [← hpeers] at hmem
  obtain ⟨⟨q', call⟩, hcall, rfl⟩ := List.mem_map.1 hmem
  exact ⟨call, hcall⟩

omit [DecidableEq ν] in
/-- When no peer has found the key, no other node holds it. -/
theorem Inv.alone_of_notFound {calls : List (ν × ReadCall β)} {answers : List (Option β)}
    (hI : Inv M s) (hmem : h ∈ s.handlers) (hstage : h.stage = .reading calls)
    (hanswers : readAnswers calls = some answers) (hfound : answers.findSome? id = none) :
    ∀ q, q ≠ h.node → NoCopy s q h.request.key := by
  intro q hq
  obtain ⟨call, hcall⟩ := mem_calls (isGet_of_reading (hI.fits h hmem) hstage).2 hq
  obtain ⟨answer, hanswer, rfl⟩ := (readAnswers_eq_some hanswers).1 q call hcall
  have hnone : answer = none := by simpa using List.findSome?_eq_none_iff.1 hfound answer hanswer
  rw [hnone] at hcall
  exact (hI.settled h hmem).missed calls q hstage hcall hq

omit [DecidableEq ν] in
/-- When a peer has found the key, the other nodes share this value or hold nothing. -/
theorem Inv.shared_of_found {calls : List (ν × ReadCall β)} {answers : List (Option β)} {value : β}
    (hI : Inv M s) (hmem : h ∈ s.handlers) (hstage : h.stage = .reading calls)
    (hanswers : readAnswers calls = some answers) (hfound : answers.findSome? id = some value) :
    ∀ q e, q ≠ h.node → Valid s q h.request.key e → e.value = value ∧ e.state = .S := by
  intro q e hq he
  have hsettled := hI.settled h hmem
  obtain ⟨found, hfoundMem, hsome⟩ := List.exists_of_findSome?_eq_some hfound
  obtain rfl : found = some value := hsome
  obtain ⟨p, hp⟩ := (readAnswers_eq_some hanswers).2 _ hfoundMem
  refine ⟨(hsettled.found calls p value hstage hp).1 q e hq he, ?_⟩
  obtain ⟨call, hcall⟩ := mem_calls (isGet_of_reading (hI.fits h hmem) hstage).2 hq
  obtain ⟨answer, hanswer, rfl⟩ := (readAnswers_eq_some hanswers).1 q call hcall
  cases answer with
  | none => exact absurd he (hsettled.missed calls q hstage hcall hq e)
  | some v => exact (hsettled.found calls q v hstage hcall).2 hq e he

theorem coherent_install {entry : CacheEntry β}
    (hcache : ∀ q, (s'.nodes q).cache = if q = h.node then
      ((s.nodes h.node).cache.put h.request.key entry).1 else (s.nodes q).cache)
    (hothers : (∀ q, q ≠ h.node → NoCopy s q h.request.key) ∨
      entry.state = .S ∧ ∀ q e, q ≠ h.node → Valid s q h.request.key e →
        e.value = entry.value ∧ e.state = .S) : Coherent s' h.request.key := by
  have hother : ∀ q e, q ≠ h.node → Valid s' q h.request.key e → Valid s q h.request.key e := by
    intro q e hq he
    have hcopy := he.1
    rw [hcache, if_neg hq] at hcopy
    exact ⟨hcopy, he.2⟩
  rcases hothers with hnone | ⟨hstate, hshared⟩
  · exact coherent_of_alone fun q hq e he => hnone q hq e (hother q e hq he)
  · have hall : ∀ q e, Valid s' q h.request.key e → e.value = entry.value ∧ e.state = .S := by
      intro q e he
      by_cases hq : q = h.node
      · have hcopy := he.1
        rw [hcache, if_pos hq] at hcopy
        rw [LruCache.copy_put_self entry hcopy]
        exact ⟨rfl, hstate⟩
      · exact hshared q e hq (hother q e hq he)
    constructor
    · intro q m e e' he he'
      rw [(hall q e he).1, (hall m e' he').1]
    · intro q m e e' he hexclusive
      rw [(hall q e he).2] at hexclusive
      rcases hexclusive with hexclusive | hexclusive <;> cases hexclusive

/-- An install step, after a write to memory or without one. -/
theorem Inv.installed {s₀ : Cluster ν β} {entry : CacheEntry β} {response : Response β}
    (hI : Inv M s) (hi : s.handlers[i]? = some h) (hopen : h.unfinished = true)
    (hsame : ∀ q, (s₀.nodes q).cache = (s.nodes q).cache) (hhandlers : s₀.handlers = s.handlers)
    (hothers : (∀ q, q ≠ h.node → NoCopy s q h.request.key) ∨
      entry.state = .S ∧ ∀ q e, q ≠ h.node → Valid s q h.request.key e →
        e.value = entry.value ∧ e.state = .S) : Inv M (s₀.install i h entry response) := by
  obtain ⟨hnodes, hafter⟩ := install_cases s₀ i h entry response
  have hcache : ∀ q, ((s₀.install i h entry response).nodes q).cache = if q = h.node then
      ((s.nodes h.node).cache.put h.request.key entry).1 else (s.nodes q).cache := by
    intro q
    rw [hnodes, cache_setCache, hsame, hsame]
  refine hI.install (List.mem_of_getElem? hi) hopen hcache (fun h' hmem' => ?_)
    (coherent_install hcache hothers)
  rcases hafter h' hmem' with hold | ⟨h₂, key, value, response', hi₂, rfl⟩
  · rw [hhandlers] at hold
    exact .inl hold
  · rw [hhandlers, hi] at hi₂
    cases hi₂
    exact .inr ⟨key, value, response', rfl⟩

/-! ### Runs -/

theorem Inv.step {a : Action ν β} (hI : Inv M s) (hok : Undisturbed M s a)
    (hmove : Moves M s a s') : Inv M s' := by
  cases hmove with
  | refuseGet n => exact hI.finish (fun _ => rfl) fun _ hmem => hmem
  | refusePut n value => exact hI.finish (fun _ => rfl) fun _ hmem => hmem
  | @hit n key o entry hget =>
      obtain ⟨-, -, -, -, htouch⟩ := LruCache.get_eq_some hget
      have hcache : ∀ q, ((s.setCache n ((s.nodes n).cache.get key).1).nodes q).cache =
          if q = n then (s.nodes n).cache.touch key else (s.nodes q).cache := by
        intro q
        rw [htouch]
        exact cache_setCache
      exact hI.hit hcache rfl
  | @miss n key hkey hget =>
      obtain ⟨hquery, hothers⟩ := hok hget
      refine hI.begin ⟨?_, hquery⟩ (settled_reading s n _ _) ?_ ?_ ?_ ?_
      · simp [Function.comp_def]
      · rintro p o ⟨calls, hcalls, hmem⟩
        cases eq_sent_of_mem hcalls hmem
      · exact fun h hmem hopen hsame => (hothers h hmem hopen hsame).1
      · exact fun h hmem hopen hsame hput _ => (hothers h hmem hopen hsame).2 hput
      · intro h hmem hopen hsame hget' hput
        cases hput
  | @put n key value hkey =>
      refine hI.begin ⟨rfl, ?_⟩ (settled_invalidating s n _ value _) ?_ ?_ ?_ ?_
      · simp [Function.comp_def]
      · rintro p o ⟨calls, hcalls, -⟩
        cases hcalls
      · exact fun h hmem hopen hsame => (hok h hmem hopen hsame).1
      · intro h hmem hopen hsame hput hget
        cases hget
      · exact fun h hmem hopen hsame hget _ => (hok h hmem hopen hsame).2 hget
  | internalRead hi hstage hj => exact hI.internalRead hi hstage hj
  | internalReadDone hi hstage hj hkey hobject => exact hI.internalReadDone hi hstage hj hobject
  | internalInvalidate hi hstage hj => exact hI.internalInvalidate hi hstage hj
  | @found i h calls answers value hi hstage hanswers hfound =>
      have hmem : h ∈ s.handlers := List.mem_of_getElem? hi
      exact hI.installed hi (unfinished_of_reading hstage) (fun _ => rfl) rfl
        (.inr ⟨rfl, hI.shared_of_found hmem hstage hanswers hfound⟩)
  | @notFound i h calls answers hi hstage hanswers hfound =>
      have hmem : h ∈ s.handlers := List.mem_of_getElem? hi
      refine hI.setStage hi (unfinished_of_reading hstage) (.inl rfl) ?_
        (hI.alone_of_notFound hmem hstage hanswers hfound)
      have hfits := hI.fits h hmem
      obtain ⟨n, request, stage⟩ := h
      subst hstage
      cases request with
      | put key value => exact hfits.elim
      | get key => trivial
  | unknown hi hstage hmemory =>
      exact hI.finish (fun _ => rfl) fun _ hmem => List.mem_of_mem_eraseIdx hmem
  | @fetched i h value hi hstage hmemory =>
      have hmem : h ∈ s.handlers := List.mem_of_getElem? hi
      exact hI.installed hi (by rw [Handler.unfinished, hstage]) (fun _ => rfl) rfl
        (.inl ((hI.settled h hmem).exclusive (.inl hstage)))
  | @invalidated i h value calls hi hstage hcalls =>
      have hmem : h ∈ s.handlers := List.mem_of_getElem? hi
      obtain ⟨-, hopen, hpeers⟩ := isPut_of_invalidating (hI.fits h hmem) hstage
      refine hI.setStage hi hopen (.inr ⟨value, rfl⟩) ?_ fun q hq => ?_
      · have hfits := hI.fits h hmem
        obtain ⟨n, request, stage⟩ := h
        subst hstage
        cases request with
        | get key => exact hfits.elim
        | put key value' => exact hfits.1
      · -- every other node has answered, so none of them has a valid entry
        obtain ⟨call, hcall⟩ := mem_calls hpeers hq
        have hdone : call = true := hcalls _ hcall
        rw [hdone] at hcall
        exact (hI.settled h hmem).invalidated value calls q hstage hcall hq
  | @written i h value hi hstage =>
      have hmem : h ∈ s.handlers := List.mem_of_getElem? hi
      exact hI.installed hi (by rw [Handler.unfinished, hstage]) (fun _ => cache_writeMemory) rfl
        (.inl ((hI.settled h hmem).exclusive (.inr ⟨value, hstage⟩)))
  | evicted hi hstage =>
      exact hI.finish (fun _ => cache_writeMemory) fun _ hmem => List.mem_of_mem_eraseIdx hmem

omit [DecidableEq ν] in
theorem inv_initial : Inv M (initial M : Cluster ν β) where
  fits := fun h hmem => (by cases hmem)
  home := fun h hmem => (by cases hmem)
  mixed := fun h hmem => (by cases hmem)
  settled := fun h hmem => (by cases hmem)
  coherent := fun key =>
    ⟨fun _ _ _ _ he => (by cases he.1), fun _ _ _ _ he => (by cases he.1)⟩

/-- The invariant in every run of undisturbed requests. -/
theorem inv_run (h : Run (CacheNode.step M) (Undisturbed M) (initial M) s) : Inv M s :=
  Run.invariant (fun _ _ _ hI hok hstep => hI.step hok (moves_of_step hstep)) h inv_initial

/-- **All keys are coherent.**  When every request begins undisturbed, the valid entries of a key
hold one value, and a modified or exclusive entry is the only valid one. -/
theorem coherence (h : Run (CacheNode.step M) (Undisturbed M) (initial M) s) (key : String) :
    Coherent s key :=
  (inv_run h).coherent key

end Steps

/-! ### Two nodes -/

/-- Two nodes that both know both, and keys that need no escapes in URLs. -/
def pair : Setup (Fin 2) where
  peers := fun _ => [0, 1]
  capacity := fun _ => 1
  queryKey := some
  nodup := fun _ => (by decide)
  all_peers := by decide
  capacity_pos := fun _ => (by decide)

/-- Requests begin while no other is running. -/
def Quiet (s : Cluster (Fin 2) ℕ) : Action (Fin 2) ℕ → Prop
  | .get _ _ => s.handlers.isEmpty = true
  | .put _ _ _ => s.handlers.isEmpty = true
  | _ => True

instance (s : Cluster (Fin 2) ℕ) : DecidablePred (Quiet s)
  | .get _ _ | .put _ _ _ => inferInstanceAs (Decidable (_ = _))
  | .internalRead _ _ | .internalReadDone _ _ | .internalInvalidate _ _ | .resume _ =>
      .isTrue trivial

theorem Quiet.undisturbed {s : Cluster (Fin 2) ℕ} {a : Action (Fin 2) ℕ} (h : Quiet s a) :
    Undisturbed pair s a := by
  cases a with
  | get n key =>
      refine fun _ => ⟨rfl, fun h' hmem => ?_⟩
      rw [List.isEmpty_iff.1 h] at hmem
      cases hmem
  | put n key value =>
      intro h' hmem
      rw [List.isEmpty_iff.1 h] at hmem
      cases hmem
  | internalRead i j => trivial
  | internalReadDone i j => trivial
  | internalInvalidate i j => trivial
  | resume i => trivial

/-- A value is put at the first node, and read at the second. -/
def putThenGet : List (Action (Fin 2) ℕ) :=
  [.put 0 "k" 1, .internalInvalidate 0 0, .internalInvalidate 0 1, .resume 0, .resume 0,
    .get 1 "k", .internalRead 0 0, .internalRead 0 1, .internalReadDone 0 0, .resume 0]

/-- Both nodes then share the entry. -/
theorem coherence_putThenGet :
    ∃ s : Cluster (Fin 2) ℕ, (s.nodes 0).cache.copy "k" = some ⟨1, .S⟩ ∧
      (s.nodes 1).cache.copy "k" = some ⟨1, .S⟩ ∧ ∀ key, Coherent s key := by
  obtain ⟨s, hrun, hfirst, hsecond⟩ :=
    Run.exists_of_exec (step pair) Quiet (initial pair) putThenGet
    (fun s => (s.nodes 0).cache.copy "k" = some ⟨1, .S⟩ ∧
      (s.nodes 1).cache.copy "k" = some ⟨1, .S⟩) (by decide)
  exact ⟨s, hfirst, hsecond, coherence (hrun.mono fun _ _ => Quiet.undisturbed)⟩

/-- Both nodes have invalidated the other's entry before one of them has an entry. -/
def overlappingPuts : List (Action (Fin 2) ℕ) :=
  [.put 0 "k" 1, .put 1 "k" 2, .internalInvalidate 0 0, .internalInvalidate 0 1,
    .internalInvalidate 1 0, .internalInvalidate 1 1, .resume 0, .resume 1, .resume 0, .resume 0]

/-- Both entries are modified in the end, and their values differ. -/
theorem coherence_fails :
    ¬ ∀ (M : Setup (Fin 2)) (s : Cluster (Fin 2) ℕ), Run (step M) anyAction (initial M) s →
      s.handlers = [] → ∀ key, Coherent s key := by
  intro hall
  obtain ⟨s, hrun, hidle, hfirst, hsecond⟩ := Run.exists_of_exec (step pair) anyAction
    (initial pair) overlappingPuts
    (fun s => s.handlers.isEmpty = true ∧ (s.nodes 0).cache.copy "k" = some ⟨1, .M⟩ ∧
      (s.nodes 1).cache.copy "k" = some ⟨2, .M⟩) (by decide)
  have hcoherent := hall pair s hrun (List.isEmpty_iff.1 hidle) "k"
  have hvalue := hcoherent.value 0 1 ⟨1, .M⟩ ⟨2, .M⟩ ⟨hfirst, (by decide)⟩ ⟨hsecond, (by decide)⟩
  cases hvalue

end CacheNode
