/-
**Internal reads preserve the invariant.**

A peer answers at once when it has no entry, or one that is not modified; an exclusive entry becomes
shared.  A modified entry is written back first, and it becomes shared after that even if it has
left the cache in the meantime, so the value that the handler gets is that of this object.

Main results:

* `CacheNode.Inv.internalRead` — a peer serves a read;
* `CacheNode.Inv.internalReadDone` — a write-back is done.
-/

import DistSync.CacheInvariant

set_option relaxedAutoImplicit false
set_option autoImplicit false

namespace CacheNode

variable {ν β : Type*}

/-! ### Reads -/

/-- What `handle_internal_read` finds and does before its `await`. -/
theorem internalRead_cases (c : LruCache β) (key : String) :
    ((∀ e, c.copy key = some e → e.state = .I) ∧
      internalRead c (some key) = (c, .answered none)) ∨
    (∃ o e, c.entries.get? key = some o ∧ c.objects[o]? = some e ∧ c.copy key = some e ∧
      e.state = .M ∧ internalRead c (some key) = (c.touch key, .writingBack o)) ∨
    (∃ o e, c.entries.get? key = some o ∧ c.copy key = some e ∧ e.state = .E ∧
      internalRead c (some key) = ((c.touch key).setState o .S, .answered (some e.value))) ∨
    (∃ e, c.copy key = some e ∧ e.state = .S ∧
      internalRead c (some key) = (c.touch key, .answered (some e.value))) := by
  cases hget : (c.get key).2 with
  | none =>
      obtain ⟨hsame, hinvalid⟩ := LruCache.get_eq_none hget
      refine .inl ⟨hinvalid, ?_⟩
      have hpair : c.get key = (c, none) := Prod.ext hsame hget
      simp only [internalRead, hpair]
  | some found =>
      obtain ⟨o, e⟩ := found
      obtain ⟨hentry, hobject, hcopy, hvalid, htouch⟩ := LruCache.get_eq_some hget
      have hpair : c.get key = (c.touch key, some (o, e)) := Prod.ext htouch hget
      cases hstate : e.state with
      | M => exact .inr (.inl ⟨o, e, hentry, hobject, hcopy, hstate, by
          simp only [internalRead, hpair, hstate]⟩)
      | E => exact .inr (.inr (.inl ⟨o, e, hentry, hcopy, hstate, by
          simp only [internalRead, hpair, hstate]⟩))
      | S => exact .inr (.inr (.inr ⟨e, hcopy, hstate, by
          simp only [internalRead, hpair, hstate]⟩))
      | I => exact absurd hstate hvalid

theorem WritingBack.of_stage {s : Cluster ν β} {h : Handler ν β} {p : ν} {o : ℕ}
    (hw : WritingBack s h p o) (stage : Stage ν β) : WritingBack s { h with stage := stage } p o :=
  ⟨hw.object, hw.owner, hw.valid, hw.shared, hw.home⟩

/-- What a handler knows after one of its reads has got further. -/
theorem Settled.setCall {s : Cluster ν β} {h : Handler ν β} {calls : List (ν × ReadCall β)}
    (hs : Settled s h) (hstage : h.stage = .reading calls) (j : ℕ) (p : ν) (call : ReadCall β)
    (hmissed : call = .answered none → p ≠ h.node → NoCopy s p h.request.key)
    (hfound : ∀ v, call = .answered (some v) →
      (∀ q e, q ≠ h.node → Valid s q h.request.key e → e.value = v) ∧
      (p ≠ h.node → ∀ e, Valid s p h.request.key e → e.state = .S))
    (hback : ∀ o, call = .writingBack o → WritingBack s h p o) :
    Settled s { h with stage := .reading (calls.set j (p, call)) } := by
  constructor
  · intro calls' p' hstage' hmem hp
    cases hstage'
    rcases List.mem_or_eq_of_mem_set hmem with hmem | heq
    · exact hs.missed calls p' hstage hmem hp
    · cases heq
      exact hmissed rfl hp
  · intro calls' p' v hstage' hmem
    cases hstage'
    rcases List.mem_or_eq_of_mem_set hmem with hmem | heq
    · exact hs.found calls p' v hstage hmem
    · cases heq
      exact hfound v rfl
  · rintro p' o ⟨calls', hstage', hmem⟩
    cases hstage'
    rcases List.mem_or_eq_of_mem_set hmem with hmem | heq
    · exact (hs.writingBack p' o ⟨calls, hstage, hmem⟩).of_stage _
    · cases heq
      exact (hback o rfl).of_stage _
  · intro v calls' p' hstage'
    cases hstage'
  · rintro (hstage' | ⟨v, hstage'⟩) <;> cases hstage'

theorem map_fst_set {α : Type*} {calls : List (ν × α)} {j : ℕ} {p : ν} {call call' : α}
    (hj : calls[j]? = some (p, call)) :
    (calls.set j (p, call')).map Prod.fst = calls.map Prod.fst := by
  refine List.ext_getElem? fun k => ?_
  rw [List.getElem?_map, List.getElem?_map, List.getElem?_set]
  split
  · next heq =>
      subst heq
      rw [hj]
      split
      · rfl
      · next hlt => exact absurd (List.getElem?_eq_some_iff.1 hj).1 hlt
  · rfl

theorem unfinished_of_reading {h : Handler ν β} {calls : List (ν × ReadCall β)}
    (hstage : h.stage = .reading calls) : h.unfinished = true := by
  rw [Handler.unfinished, hstage]

/-- The key of a read is the same after its way through a URL. -/
theorem queryKey_of_reading {M : Setup ν} {h : Handler ν β} {calls : List (ν × ReadCall β)}
    (hfits : h.fits M) (hstage : h.stage = .reading calls) :
    M.queryKey h.request.key = some h.request.key := by
  obtain ⟨n, request, stage⟩ := h
  subst hstage
  cases request with
  | put key value => exact hfits.elim
  | get key => exact hfits.2

/-- Unfinished handlers at different nodes have different keys. -/
theorem Inv.key_ne {M : Setup ν} {s : Cluster ν β} {h h₂ : Handler ν β} (hI : Inv M s)
    (hmem : h ∈ s.handlers) (hmem₂ : h₂ ∈ s.handlers) (hopen : h.unfinished = true)
    (hopen₂ : h₂.unfinished = true) (hnode : h.node ≠ h₂.node) :
    h₂.request.key ≠ h.request.key :=
  fun hkey => hnode (hI.home h hmem h₂ hmem₂ hopen hopen₂ hkey.symm)

section Steps

variable [DecidableEq ν] {M : Setup ν} {s s' : Cluster ν β} {i j : ℕ} {h : Handler ν β}
  {p : ν} {cache : LruCache β}

/-- A relation between the caches before and after, when one of them changed. -/
theorem forall_cache {R : LruCache β → LruCache β → Prop} (hrefl : ∀ c, R c c)
    (hcache : ∀ q, (s'.nodes q).cache = if q = p then cache else (s.nodes q).cache)
    (h : R (s.nodes p).cache cache) (q : ν) : R (s.nodes q).cache (s'.nodes q).cache := by
  rw [hcache]
  split
  · next heq =>
      rw [heq]
      exact h
  · exact hrefl _

/-- A read of a handler gets further, and the cache of its peer changes. -/
theorem Inv.setCall {calls : List (ν × ReadCall β)} {call call' : ReadCall β} (hI : Inv M s)
    (hi : s.handlers[i]? = some h) (hstage : h.stage = .reading calls)
    (hj : calls[j]? = some (p, call))
    (hcache : ∀ q, (s'.nodes q).cache = if q = p then cache else (s.nodes q).cache)
    (hhandlers : s'.handlers = (s.setStage i (.reading (calls.set j (p, call')))).handlers)
    (hweak : ∀ h₂ ∈ s.handlers, h₂.unfinished = true → p ≠ h₂.node →
      LruCache.Weakens h₂.request.key (s.nodes p).cache cache)
    (hkeeps : LruCache.Keeps (s.nodes p).cache cache)
    (hspares : ∀ key, LruCache.Spares key (s.nodes p).cache cache)
    (hcoherent : ∀ key, Coherent s' key)
    (hmissed : call' = .answered none → p ≠ h.node → NoCopy s' p h.request.key)
    (hfound : ∀ v, call' = .answered (some v) →
      (∀ q e, q ≠ h.node → Valid s' q h.request.key e → e.value = v) ∧
      (p ≠ h.node → ∀ e, Valid s' p h.request.key e → e.state = .S))
    (hback : ∀ o, call' = .writingBack o → WritingBack s' h p o ∧
      (¬ NoModified s h.node h.request.key ∨ p = h.node)) : Inv M s' := by
  have hmem : h ∈ s.handlers := List.mem_of_getElem? hi
  have hopen := unfinished_of_reading hstage
  have hweak' : ∀ h₂ ∈ s.handlers, h₂.unfinished = true → ∀ q, q ≠ h₂.node →
      LruCache.Weakens h₂.request.key (s.nodes q).cache (s'.nodes q).cache := by
    intro h₂ hmem₂ hopen₂ q hq
    rw [hcache]
    split
    · next heq =>
        rw [heq] at hq ⊢
        exact hweak h₂ hmem₂ hopen₂ hq
    · exact .refl _ _
  have hkeeps' := forall_cache LruCache.Keeps.refl hcache hkeeps
  have hspares' : ∀ key q, LruCache.Spares key (s.nodes q).cache (s'.nodes q).cache :=
    fun key => forall_cache (LruCache.Spares.refl key) hcache (hspares key)
  refine hI.advance (fun h' hmem' => ?_) hweak' hkeeps' (fun h₂ _ q o _ _ => hspares' _ q) hcoherent
  rw [hhandlers] at hmem'
  rcases mem_setStage hmem' with hold | ⟨h₂, hi₂, rfl⟩
  · exact .inl hold
  · rw [hi] at hi₂
    cases hi₂
    refine .inr ⟨h, hmem, rfl, rfl, fun _ => hopen, fun q o hq => ?_, ?_, ?_⟩
    · obtain ⟨calls', hcalls', hq⟩ := hq
      cases hcalls'
      rcases List.mem_or_eq_of_mem_set hq with hq | heq
      · exact .inl ⟨calls, hstage, hq⟩
      · obtain ⟨rfl, hcall⟩ := Prod.mk.inj heq
        exact .inr (hback o hcall.symm).2
    · have hfits := hI.fits h hmem
      obtain ⟨n, request, stage⟩ := h
      subst hstage
      cases request with
      | put key value => exact hfits.elim
      | get key => exact ⟨(map_fst_set hj).trans hfits.1, hfits.2⟩
    · have hsettled : Settled s' h := (hI.settled h hmem).mono (hweak' h hmem hopen) hkeeps'
        fun q o _ _ => hspares' _ q
      exact hsettled.setCall hstage j p call' hmissed hfound fun o ho => (hback o ho).1

theorem cache_setCall {stage : Stage ν β} (q : ν) :
    ((((s.setCache p cache).setStage i stage)).nodes q).cache =
      if q = p then cache else (s.nodes q).cache :=
  cache_setCache

omit [DecidableEq ν] in
/-- Valid entries at other nodes agree with one that is valid somewhere before the step. -/
theorem value_eq_of_valid {key : String} (hc : Coherent s key) {n : ν} {e : CacheEntry β}
    (he : Valid s p key e)
    (hweak : ∀ q, q ≠ n → LruCache.Weakens key (s.nodes q).cache (s'.nodes q).cache) (q : ν)
    (e' : CacheEntry β) (hq : q ≠ n) (he' : Valid s' q key e') : e'.value = e.value := by
  obtain ⟨d, hd, hvalue, -⟩ := valid_of_weakens (hweak q hq) he'
  rw [← hvalue]
  exact hc.value q p d e hd he

/-- **Serving an internal read** keeps the invariant, when the change of the cache weakens every key
and the call gets what the peer has: nothing when it has no valid entry, else the value of its
entry, which is shared from then on or is to be written back first. -/
theorem Inv.serve {calls : List (ν × ReadCall β)} {call : ReadCall β} (hI : Inv M s)
    (hi : s.handlers[i]? = some h) (hstage : h.stage = .reading calls)
    (hj : calls[j]? = some (p, .sent))
    (hweak : ∀ key, LruCache.Weakens key (s.nodes p).cache cache)
    (hkeeps : LruCache.Keeps (s.nodes p).cache cache)
    (hspares : ∀ key, LruCache.Spares key (s.nodes p).cache cache)
    (hmissed : call = .answered none → ∀ e, cache.copy h.request.key = some e → e.state = .I)
    (hfound : ∀ v, call = .answered (some v) → (∃ e, Valid s p h.request.key e ∧ e.value = v) ∧
      ∀ e, cache.copy h.request.key = some e → e.state = .S)
    (hback : ∀ o, call = .writingBack o → cache = (s.nodes p).cache.touch h.request.key ∧
      (s.nodes p).cache.entries.get? h.request.key = some o ∧ ∃ e,
        (s.nodes p).cache.objects[o]? = some e ∧ Valid s p h.request.key e ∧ e.state = .M) :
    Inv M ((s.setCache p cache).setStage i (.reading (calls.set j (p, call)))) := by
  have hweak' : ∀ key q, LruCache.Weakens key (s.nodes q).cache
      (((s.setCache p cache).setStage i (.reading (calls.set j (p, call)))).nodes q).cache :=
    fun key => forall_cache (LruCache.Weakens.refl key) cache_setCall (hweak key)
  have hself : ((s.setCache p cache).nodes p).cache = cache := by rw [cache_setCache, if_pos rfl]
  refine hI.setCall hi hstage hj cache_setCall rfl (fun _ _ _ _ => hweak _) hkeeps hspares
    (fun key => (hI.coherent key).weaken (hweak' key)) ?_ ?_ ?_
  · intro hcall _ e he
    exact he.2 (hmissed hcall e (hself ▸ he.1))
  · intro v hcall
    obtain ⟨⟨e, he, rfl⟩, hshared⟩ := hfound v hcall
    exact ⟨value_eq_of_valid (hI.coherent _) he fun q _ => hweak' _ q,
      fun _ e' he' => hshared e' (hself ▸ he'.1)⟩
  · intro o hcall
    obtain ⟨htouch, hentry, e, hobject, he, hM⟩ := hback o hcall
    subst htouch
    have hsame : ((((s.setCache p ((s.nodes p).cache.touch h.request.key)).setStage i
        (.reading (calls.set j (p, call)))).nodes p)).cache =
        (s.nodes p).cache.touch h.request.key := hself
    refine ⟨⟨⟨e, ?_, ?_⟩, fun key hkey => ?_, fun _ _ => ⟨e, ?_, he.2⟩, fun _ e' _ => .inl ?_,
      fun hp q hq e' he' => ?_⟩, ?_⟩
    · rw [hsame]
      exact hobject
    · exact value_eq_of_valid (hI.coherent _) he fun q _ => hweak' _ q
    · rw [hsame] at hkey
      exact (s.nodes p).cache.owner key _ o hkey hentry
    · rw [hsame]
      exact he.1
    · rw [hsame]
      exact hentry
    · -- the reader itself has the modified entry, so no other node has a copy
      obtain ⟨d, hd, -, -⟩ := valid_of_weakens (hweak' _ q) he'
      exact hq (((hI.coherent _).alone p q e d he (.inl hM) hd).trans hp)
    · by_cases hp : p = h.node
      · exact .inr hp
      · exact .inl fun hno => hno p hp e he.1 hM

/-- An internal read is served. -/
theorem Inv.internalRead {calls : List (ν × ReadCall β)} (hI : Inv M s)
    (hi : s.handlers[i]? = some h) (hstage : h.stage = .reading calls)
    (hj : calls[j]? = some (p, .sent)) :
    Inv M ((s.setCache p
      (CacheNode.internalRead (s.nodes p).cache (M.queryKey h.request.key)).1).setStage i
      (.reading (calls.set j (p,
        (CacheNode.internalRead (s.nodes p).cache (M.queryKey h.request.key)).2)))) := by
  rw [queryKey_of_reading (hI.fits h (List.mem_of_getElem? hi)) hstage]
  rcases internalRead_cases (s.nodes p).cache h.request.key with ⟨hinvalid, heq⟩ |
    ⟨o, e, hentry, hobject, hcopy, hstate, heq⟩ | ⟨o, e, hentry, hcopy, hstate, heq⟩ |
    ⟨e, hcopy, hstate, heq⟩
  · rw [heq]
    -- a miss leaves the cache as it is
    exact hI.serve hi hstage hj (fun key => .refl key _) (.refl _) (fun key => .refl key _)
      (fun _ => hinvalid) (fun v hv => nomatch hv) fun o ho => nomatch ho
  · rw [heq]
    have he : Valid s p h.request.key e := ⟨hcopy, by rw [hstate]; simp⟩
    refine hI.serve hi hstage hj (fun key => LruCache.weakens_touch) LruCache.keeps_touch
      (fun key => LruCache.spares_touch) (fun hc => nomatch hc) (fun v hv => nomatch hv)
      fun o' ho => ?_
    cases ho
    exact ⟨rfl, hentry, e, hobject, he, hstate⟩
  · rw [heq]
    have he : Valid s p h.request.key e := ⟨hcopy, by rw [hstate]; simp⟩
    -- an exclusive entry becomes shared before the answer
    have hvalid : ∀ key, (s.nodes p).cache.entries.get? key = some o →
        ∃ e, (s.nodes p).cache.copy key = some e ∧ e.state ≠ .I := by
      intro key hkey
      rw [(s.nodes p).cache.owner key _ o hkey hentry]
      exact ⟨e, he⟩
    have hkeeps := LruCache.keeps_setState ((s.nodes p).cache.touch h.request.key) o .S
    refine hI.serve hi hstage hj (fun key => LruCache.weakens_setState_S (hvalid key))
      ⟨hkeeps.value, hkeeps.entries⟩
      (fun key => LruCache.spares_setState_S (s.nodes p).cache key o) (fun hc => nomatch hc)
      (fun v hv => ?_) fun o' ho => nomatch ho
    cases hv
    refine ⟨⟨e, he, rfl⟩, fun e' he' => ?_⟩
    rw [LruCache.copy_setState] at he'
    split at he'
    · rw [Option.map_eq_some_iff] at he'
      obtain ⟨d, -, rfl⟩ := he'
      rfl
    · next hnot => exact absurd hentry hnot
  · rw [heq]
    have he : Valid s p h.request.key e := ⟨hcopy, by rw [hstate]; simp⟩
    refine hI.serve hi hstage hj (fun key => LruCache.weakens_touch) LruCache.keeps_touch
      (fun key => LruCache.spares_touch) (fun hc => nomatch hc) (fun v hv => ?_)
      fun o' ho => nomatch ho
    cases hv
    refine ⟨⟨e, he, rfl⟩, fun e' he' => ?_⟩
    rw [LruCache.copy_touch, hcopy] at he'
    cases he'
    exact hstate

theorem coherent_of_alone {key : String} {n : ν} (h : ∀ q, q ≠ n → NoCopy s q key) :
    Coherent s key := by
  have hself : ∀ q e, Valid s q key e → q = n := by
    intro q e he
    by_contra hq
    exact h q hq e he
  constructor
  · intro q m e e' he he'
    have hq := hself q e he
    have hm := hself m e' he'
    rw [hq] at he
    rw [hm] at he'
    have heq : e = e' := Option.some.inj (he.1.symm.trans he'.1)
    rw [heq]
  · intro q m e e' he _ he'
    rw [hself q e he, hself m e' he']

/-- An internal read has written the entry back. -/
theorem Inv.internalReadDone {calls : List (ν × ReadCall β)} {o : ℕ} {key : String}
    {entry : CacheEntry β} (hI : Inv M s) (hi : s.handlers[i]? = some h)
    (hstage : h.stage = .reading calls) (hj : calls[j]? = some (p, .writingBack o))
    (hobject : (s.nodes p).cache.objects[o]? = some entry) :
    Inv M (((s.writeMemory p key entry.value).setCache p ((s.nodes p).cache.setState o .S)).setStage
      i (.reading (calls.set j (p, .answered (some entry.value))))) := by
  have hmem : h ∈ s.handlers := List.mem_of_getElem? hi
  have hopen := unfinished_of_reading hstage
  have hW : WritingBack s h p o :=
    (hI.settled h hmem).writingBack p o ⟨calls, hstage, List.mem_of_getElem? hj⟩
  obtain ⟨e, he, hvalue⟩ := hW.object
  rw [he] at hobject
  cases hobject
  generalize hs' : ((s.writeMemory p key entry.value).setCache p ((s.nodes p).cache.setState o
    .S)).setStage i (.reading (calls.set j (p, .answered (some entry.value)))) = s'
  have hcache : ∀ q, (s'.nodes q).cache =
      if q = p then (s.nodes p).cache.setState o .S else (s.nodes q).cache := by
    intro q
    rw [← hs', cache_setCall, cache_writeMemory]
  have hhandlers : s'.handlers =
      (s.setStage i (.reading (calls.set j (p, .answered (some entry.value))))).handlers := by
    rw [← hs']
    rfl
  -- the object belongs to no other key, and its entry is valid unless this is the node itself
  have hweak : ∀ key', (key' = h.request.key → p ≠ h.node) →
      LruCache.Weakens key' (s.nodes p).cache ((s.nodes p).cache.setState o .S) := by
    intro key' hhome
    refine LruCache.weakens_setState_S fun hkey => ?_
    obtain rfl := hW.owner key' hkey
    exact hW.valid (hhome rfl) hkey
  have hcoherent : ∀ key', Coherent s' key' := by
    intro key'
    by_cases hhome : key' = h.request.key ∧ p = h.node
    · obtain ⟨rfl, hp⟩ := hhome
      refine coherent_of_alone (n := h.node) fun q hq => (hW.home hp q hq).weaken ?_
      rw [hcache, if_neg (fun heq => hq (heq.trans hp))]
      exact .refl _ _
    · refine (hI.coherent key').weaken (forall_cache (LruCache.Weakens.refl key') hcache
        (hweak key' fun hkey hp => hhome ⟨hkey, hp⟩))
  refine hI.setCall hi hstage hj hcache hhandlers (fun h₂ hmem₂ hopen₂ hp => ?_)
    (LruCache.keeps_setState _ o .S) (fun key' => LruCache.spares_setState_S _ key' o) hcoherent
    (fun hc => nomatch hc) (fun v hv => ?_) fun o' ho => nomatch ho
  · refine hweak _ fun hkey heq => hp (heq.trans ?_)
    exact hI.home h hmem h₂ hmem₂ hopen hopen₂ hkey.symm
  · cases hv
    constructor
    · intro q e' hq he'
      by_cases hqp : q = p
      · subst hqp
        have hq' : LruCache.Weakens h.request.key (s.nodes q).cache (s'.nodes q).cache := by
          rw [hcache, if_pos rfl]
          exact hweak _ fun _ => hq
        obtain ⟨d, hd, hdvalue, -⟩ := valid_of_weakens hq' he'
        rw [← hdvalue]
        exact hvalue q d hq hd
      · refine hvalue q e' hq ⟨?_, he'.2⟩
        have hcopy := he'.1
        rwa [hcache, if_neg hqp] at hcopy
    · intro hp e' he'
      have hcopy := he'.1
      rw [hcache, if_pos rfl, LruCache.copy_setState] at hcopy
      split at hcopy
      · rw [Option.map_eq_some_iff] at hcopy
        obtain ⟨d, -, rfl⟩ := hcopy
        rfl
      · next hnot => exact (hW.shared hp e' ⟨hcopy, he'.2⟩).resolve_left hnot

end Steps

end CacheNode
