/-
**The invariant of the caches.**

A key may be valid at many nodes while all entries hold one value, and if one of them is modified or
exclusive, at that node only.  Neither a put nor a get takes a key for itself before it installs its
entry: what it has learnt from the peers, that they hold nothing or hold a certain value, must still
be true at the end.  It is while no other node installs an entry for the key, so the handlers of one
key have to be at one node, and a put must not invalidate an entry that a read is writing back,
since the read makes it valid again.

`CacheNode.Settled` says what a handler has learnt so far, and `CacheNode.Inv` is the invariant of
the runs in which every request begins under this condition, `CacheNode.Undisturbed`.

Main definitions:

* `CacheNode.Coherent` — **coherence of a key**;
* `CacheNode.Undisturbed` — the requests that may begin;
* `CacheNode.Settled`, `CacheNode.Inv` — the invariant.

Main results:

* `CacheNode.Inv.advance` — what the steps of running handlers have in common;
* `CacheNode.Inv.begin` — a handler may begin where the others of its key are.
-/

import DistSync.CacheNode

set_option relaxedAutoImplicit false
set_option autoImplicit false

namespace CacheNode

variable {ν β : Type*}

/-! ### Coherence -/

/-- A node holds an entry for a key that is not invalid. -/
def Valid (s : Cluster ν β) (n : ν) (key : String) (e : CacheEntry β) : Prop :=
  (s.nodes n).cache.copy key = some e ∧ e.state ≠ .I

/-- A node holds no valid entry for a key. -/
def NoCopy (s : Cluster ν β) (n : ν) (key : String) : Prop := ∀ e, ¬ Valid s n key e

/-- **Coherence of a key.** -/
structure Coherent (s : Cluster ν β) (key : String) : Prop where
  value : ∀ n m e e', Valid s n key e → Valid s m key e' → e.value = e'.value
  alone : ∀ n m e e', Valid s n key e → e.state = .M ∨ e.state = .E → Valid s m key e' → m = n

/-! ### What handlers know -/

/-- The handler has not installed its entry yet. -/
def Handler.unfinished (h : Handler ν β) : Bool :=
  match h.stage with
  | .evicting _ _ _ => false
  | _ => true

/-- The handler serves a put. -/
def Handler.isPut (h : Handler ν β) : Bool :=
  match h.request with
  | .get _ => false
  | .put _ _ => true

/-- A read of the handler is writing an object back at a peer. -/
def Handler.writingBack (h : Handler ν β) (p : ν) (o : ℕ) : Prop :=
  ∃ calls, h.stage = .reading calls ∧ (p, .writingBack o) ∈ calls

/-- No other node holds the key in a modified entry. -/
def NoModified (s : Cluster ν β) (n : ν) (key : String) : Prop :=
  ∀ m, m ≠ n → ∀ e ∈ (s.nodes m).cache.copy key, e.state ≠ .M

/-- What is known of an object that is being written back for a handler. -/
structure WritingBack (s : Cluster ν β) (h : Handler ν β) (p : ν) (o : ℕ) : Prop where
  object : ∃ e, (s.nodes p).cache.objects[o]? = some e ∧
    ∀ q e', q ≠ h.node → Valid s q h.request.key e' → e'.value = e.value
  owner : ∀ key, (s.nodes p).cache.entries.get? key = some o → key = h.request.key
  valid : p ≠ h.node → (s.nodes p).cache.entries.get? h.request.key = some o →
    ∃ e, Valid s p h.request.key e
  shared : p ≠ h.node → ∀ e, Valid s p h.request.key e →
    (s.nodes p).cache.entries.get? h.request.key = some o ∨ e.state = .S
  home : p = h.node → ∀ q, q ≠ h.node → NoCopy s q h.request.key

/-- What a handler has learnt about the other nodes. -/
structure Settled (s : Cluster ν β) (h : Handler ν β) : Prop where
  missed : ∀ calls p, h.stage = .reading calls → (p, .answered none) ∈ calls → p ≠ h.node →
    NoCopy s p h.request.key
  found : ∀ calls p v, h.stage = .reading calls → (p, .answered (some v)) ∈ calls →
    (∀ q e, q ≠ h.node → Valid s q h.request.key e → e.value = v) ∧
    (p ≠ h.node → ∀ e, Valid s p h.request.key e → e.state = .S)
  writingBack : ∀ p o, h.writingBack p o → WritingBack s h p o
  invalidated : ∀ v calls p, h.stage = .invalidating v calls → (p, true) ∈ calls → p ≠ h.node →
    NoCopy s p h.request.key
  exclusive : (h.stage = .fetching ∨ ∃ v, h.stage = .writing v) → ∀ q, q ≠ h.node →
    NoCopy s q h.request.key

/-- The place at which a handler waits fits its request. -/
def Handler.fits (M : Setup ν) (h : Handler ν β) : Prop :=
  match h.stage, h.request with
  | .reading calls, .get key => calls.map Prod.fst = M.peers h.node ∧ M.queryKey key = some key
  | .fetching, .get _ => True
  | .invalidating v calls, .put _ v' => v = v' ∧ calls.map Prod.fst = M.peers h.node
  | .writing v, .put _ v' => v = v'
  | .evicting _ _ _, _ => True
  | _, _ => False

/-- **The invariant.**  All unfinished handlers of a key are at one node. -/
structure Inv (M : Setup ν) (s : Cluster ν β) : Prop where
  fits : ∀ h ∈ s.handlers, h.fits M
  home : ∀ h ∈ s.handlers, ∀ h' ∈ s.handlers, h.unfinished = true → h'.unfinished = true →
    h.request.key = h'.request.key → h.node = h'.node
  mixed : ∀ h ∈ s.handlers, ∀ h' ∈ s.handlers, h.unfinished = true → h'.unfinished = true →
    h.request.key = h'.request.key → h.isPut = true → h'.isPut = false →
    NoModified s h.node h.request.key ∧ ∀ p o, h'.writingBack p o → p = h.node
  settled : ∀ h ∈ s.handlers, Settled s h
  coherent : ∀ key, Coherent s key

/-- A request begins while all unfinished handlers of its key are at its node.  A put and a get that
is not answered at once meet there only while no other node holds the key in a modified entry or is
writing it back.  The key of such a get is the same after its way through a URL. -/
def Undisturbed (M : Setup ν) (s : Cluster ν β) : Action ν β → Prop
  | .get n key => ((s.nodes n).cache.get key).2 = none → M.queryKey key = some key ∧
      ∀ h ∈ s.handlers, h.unfinished = true → h.request.key = key → h.node = n ∧
        (h.isPut = true → NoModified s n key)
  | .put n key _ => ∀ h ∈ s.handlers, h.unfinished = true → h.request.key = key → h.node = n ∧
      (h.isPut = false → NoModified s n key ∧ ∀ p o, h.writingBack p o → p = n)
  | _ => True

/-! ### Frames -/

theorem valid_of_weakens {s s' : Cluster ν β} {n : ν} {key : String}
    (h : LruCache.Weakens key (s.nodes n).cache (s'.nodes n).cache) {e' : CacheEntry β}
    (he' : Valid s' n key e') :
    ∃ e, Valid s n key e ∧ e.value = e'.value ∧ (e'.state = e.state ∨ e'.state = .S) := by
  obtain ⟨-, e, he, hvalid, hvalue, hstate⟩ := h e' he'.1 he'.2
  exact ⟨e, ⟨he, hvalid⟩, hvalue, hstate⟩

theorem NoCopy.weaken {s s' : Cluster ν β} {n : ν} {key : String} (hno : NoCopy s n key)
    (h : LruCache.Weakens key (s.nodes n).cache (s'.nodes n).cache) : NoCopy s' n key := by
  intro e' he'
  obtain ⟨e, he, -, -⟩ := valid_of_weakens h he'
  exact hno e he

theorem Coherent.weaken {s s' : Cluster ν β} {key : String} (hc : Coherent s key)
    (h : ∀ n, LruCache.Weakens key (s.nodes n).cache (s'.nodes n).cache) : Coherent s' key := by
  constructor
  · intro n m e e' he he'
    obtain ⟨d, hd, hvalue, -⟩ := valid_of_weakens (h n) he
    obtain ⟨d', hd', hvalue', -⟩ := valid_of_weakens (h m) he'
    rw [← hvalue, ← hvalue']
    exact hc.value n m d d' hd hd'
  · intro n m e e' he hstate he'
    obtain ⟨d, hd, -, hd_state⟩ := valid_of_weakens (h n) he
    obtain ⟨d', hd', -, -⟩ := valid_of_weakens (h m) he'
    refine hc.alone n m d d' hd ?_ hd'
    rcases hd_state with heq | heq
    · rwa [← heq]
    · rw [heq] at hstate
      rcases hstate with h | h <;> cases h

theorem NoModified.weaken {s s' : Cluster ν β} {n : ν} {key : String} (hno : NoModified s n key)
    (h : ∀ m, m ≠ n → LruCache.Weakens key (s.nodes m).cache (s'.nodes m).cache) :
    NoModified s' n key := by
  intro m hm e' he' hstate
  obtain ⟨-, e, he, -, -, heq⟩ := h m hm e' he' (by rw [hstate]; simp)
  rcases heq with heq | heq
  · exact hno m hm e he (heq ▸ hstate)
  · rw [heq] at hstate
    cases hstate

/-- A handler's knowledge survives when the other nodes only lose entries of its key, and none that
is being written back for it becomes invalid. -/
theorem Settled.mono {s s' : Cluster ν β} {h : Handler ν β} (hs : Settled s h)
    (hweak : ∀ q, q ≠ h.node → LruCache.Weakens h.request.key (s.nodes q).cache (s'.nodes q).cache)
    (hkeeps : ∀ p, LruCache.Keeps (s.nodes p).cache (s'.nodes p).cache)
    (hspares : ∀ p o, p ≠ h.node → h.writingBack p o →
      LruCache.Spares h.request.key (s.nodes p).cache (s'.nodes p).cache) : Settled s' h := by
  constructor
  · intro calls p hstage hmem hp
    exact (hs.missed calls p hstage hmem hp).weaken (hweak p hp)
  · intro calls p v hstage hmem
    obtain ⟨hvalue, hshared⟩ := hs.found calls p v hstage hmem
    refine ⟨fun q e' hq he' => ?_, fun hp e' he' => ?_⟩
    · obtain ⟨e, he, heq, -⟩ := valid_of_weakens (hweak q hq) he'
      rw [← heq]
      exact hvalue q e hq he
    · obtain ⟨e, he, -, heq⟩ := valid_of_weakens (hweak p hp) he'
      rcases heq with heq | heq
      · rw [heq]
        exact hshared hp e he
      · exact heq
  · intro p o hback
    have hold := hs.writingBack p o hback
    obtain ⟨e, he, hvalue⟩ := hold.object
    have hlt : o < (s.nodes p).cache.objects.length := (List.getElem?_eq_some_iff.1 he).1
    -- the object that is being written back keeps its value, also when it has left the cache
    obtain ⟨e₁, he₁, heq⟩ := (hkeeps p).value o e he
    refine ⟨⟨e₁, he₁, fun q e' hq he' => ?_⟩, fun key hkey => ?_, fun hp hkey => ?_,
      fun hp e' he' => ?_, fun hp q hq => (hold.home hp q hq).weaken (hweak q hq)⟩
    · obtain ⟨d, hd, hdvalue, -⟩ := valid_of_weakens (hweak q hq) he'
      rw [← hdvalue, heq]
      exact hvalue q d hq hd
    · exact hold.owner key ((hkeeps p).entries key o hlt hkey)
    · obtain ⟨d, hd⟩ := hold.valid hp ((hkeeps p).entries _ o hlt hkey)
      have hcopy := (LruCache.copy_of_entry hkey).trans he₁
      exact ⟨e₁, hcopy, hspares p o hp hback d e₁ hd.1 hd.2 hcopy⟩
    · obtain ⟨hentry, d, hd, hdvalid, -, hstate⟩ := hweak p hp e' he'.1 he'.2
      rcases hold.shared hp d ⟨hd, hdvalid⟩ with hcurrent | hshared
      · exact .inl (hentry.trans hcurrent)
      · rw [hshared, or_self] at hstate
        exact .inr hstate
  · intro v calls p hstage hmem hp
    exact (hs.invalidated v calls p hstage hmem hp).weaken (hweak p hp)
  · intro hstage q hq
    exact (hs.exclusive hstage q hq).weaken (hweak q hq)

theorem settled_of_finished {s : Cluster ν β} {h : Handler ν β} (hfinished : h.unfinished = false) :
    Settled s h := by
  unfold Handler.unfinished at hfinished
  split at hfinished
  · next key value response hstage =>
      constructor
      · intro calls p hreading
        rw [hstage] at hreading
        cases hreading
      · intro calls p v hreading
        rw [hstage] at hreading
        cases hreading
      · rintro p o ⟨calls, hreading, -⟩
        rw [hstage] at hreading
        cases hreading
      · intro v calls p hinvalidating
        rw [hstage] at hinvalidating
        cases hinvalidating
      · rintro (hfetching | ⟨v, hwriting⟩)
        · rw [hstage] at hfetching
          cases hfetching
        · rw [hstage] at hwriting
          cases hwriting
  · cases hfinished

/-- The part of the invariant that is the same for all steps of running handlers. -/
theorem Inv.advance {M : Setup ν} {s s' : Cluster ν β} (hI : Inv M s)
    (hhandlers : ∀ h' ∈ s'.handlers, h' ∈ s.handlers ∨ ∃ h ∈ s.handlers, h'.node = h.node ∧
      h'.request = h.request ∧ (h'.unfinished = true → h.unfinished = true) ∧
      (∀ p o, h'.writingBack p o → h.writingBack p o ∨
        ¬ NoModified s h.node h.request.key ∨ p = h.node) ∧ h'.fits M ∧ Settled s' h')
    (hweak : ∀ h ∈ s.handlers, h.unfinished = true → ∀ q, q ≠ h.node →
      LruCache.Weakens h.request.key (s.nodes q).cache (s'.nodes q).cache)
    (hkeeps : ∀ p, LruCache.Keeps (s.nodes p).cache (s'.nodes p).cache)
    (hspares : ∀ h ∈ s.handlers, ∀ p o, p ≠ h.node → h.writingBack p o →
      LruCache.Spares h.request.key (s.nodes p).cache (s'.nodes p).cache)
    (hcoherent : ∀ key, Coherent s' key) : Inv M s' := by
  have horigin : ∀ h' ∈ s'.handlers, ∃ h ∈ s.handlers, h'.node = h.node ∧
      h'.request = h.request ∧ (h'.unfinished = true → h.unfinished = true) ∧
      (∀ p o, h'.writingBack p o → h.writingBack p o ∨
        ¬ NoModified s h.node h.request.key ∨ p = h.node) := by
    intro h' hmem
    rcases hhandlers h' hmem with hmem | ⟨h, hmem, hnode, hrequest, hopen, hback, -⟩
    · exact ⟨h', hmem, rfl, rfl, id, fun _ _ => .inl⟩
    · exact ⟨h, hmem, hnode, hrequest, hopen, hback⟩
  constructor
  · intro h' hmem
    rcases hhandlers h' hmem with hmem | ⟨h, -, -, -, -, -, hfits, -⟩
    · exact hI.fits h' hmem
    · exact hfits
  · intro h₁' hmem₁ h₂' hmem₂ hopen₁ hopen₂ hkey
    obtain ⟨h₁, hm₁, hn₁, hr₁, ho₁, -⟩ := horigin h₁' hmem₁
    obtain ⟨h₂, hm₂, hn₂, hr₂, ho₂, -⟩ := horigin h₂' hmem₂
    rw [hr₁, hr₂] at hkey
    rw [hn₁, hn₂]
    exact hI.home h₁ hm₁ h₂ hm₂ (ho₁ hopen₁) (ho₂ hopen₂) hkey
  · intro h₁' hmem₁ h₂' hmem₂ hopen₁ hopen₂ hkey hput hget
    obtain ⟨h₁, hm₁, hn₁, hr₁, ho₁, -⟩ := horigin h₁' hmem₁
    obtain ⟨h₂, hm₂, hn₂, hr₂, ho₂, hback₂⟩ := horigin h₂' hmem₂
    rw [hr₁, hr₂] at hkey
    rw [Handler.isPut, hr₁] at hput
    rw [Handler.isPut, hr₂] at hget
    have hhome := hI.home h₁ hm₁ h₂ hm₂ (ho₁ hopen₁) (ho₂ hopen₂) hkey
    obtain ⟨hno, hpending⟩ :=
      hI.mixed h₁ hm₁ h₂ hm₂ (ho₁ hopen₁) (ho₂ hopen₂) hkey hput hget
    rw [hn₁, hr₁]
    refine ⟨hno.weaken (hweak h₁ hm₁ (ho₁ hopen₁)), fun p o hp => ?_⟩
    rcases hback₂ p o hp with hp | hp | hp
    · exact hpending p o hp
    · rw [← hhome, ← hkey] at hp
      exact absurd hno hp
    · rw [hp, hhome]
  · intro h' hmem
    rcases hhandlers h' hmem with hmem | ⟨h, -, -, -, -, -, -, hsettled⟩
    · cases hopen : h'.unfinished with
      | false => exact settled_of_finished hopen
      | true =>
          exact (hI.settled h' hmem).mono (hweak h' hmem hopen) hkeeps (hspares h' hmem)
    · exact hsettled
  · exact hcoherent

/-! ### New handlers -/

theorem Settled.of_nodes {s s' : Cluster ν β} {h : Handler ν β} (hs : Settled s h)
    (hnodes : s'.nodes = s.nodes) : Settled s' h := by
  have hsame : ∀ p, (s'.nodes p).cache = (s.nodes p).cache := fun p => by rw [hnodes]
  refine hs.mono (fun q _ => ?_) (fun p => ?_) fun p _ _ _ => ?_
  · rw [hsame]
    exact .refl _ _
  · rw [hsame]
    exact .refl _
  · rw [hsame]
    exact .refl _ _

theorem Coherent.of_nodes {s s' : Cluster ν β} {key : String} (hc : Coherent s key)
    (hnodes : s'.nodes = s.nodes) : Coherent s' key :=
  hc.weaken fun p => (by rw [hnodes]; exact .refl _ _)

/-- A handler may begin where the others of its key are. -/
theorem Inv.begin {M : Setup ν} {s : Cluster ν β} {h₀ : Handler ν β} (hI : Inv M s)
    (hfits : h₀.fits M) (hsettled : Settled s h₀) (hback : ∀ p o, ¬ h₀.writingBack p o)
    (hhome : ∀ h ∈ s.handlers, h.unfinished = true → h.request.key = h₀.request.key →
      h.node = h₀.node)
    (hget : ∀ h ∈ s.handlers, h.unfinished = true → h.request.key = h₀.request.key →
      h.isPut = true → h₀.isPut = false → NoModified s h₀.node h₀.request.key)
    (hput : ∀ h ∈ s.handlers, h.unfinished = true → h.request.key = h₀.request.key →
      h.isPut = false → h₀.isPut = true → NoModified s h₀.node h₀.request.key ∧
        ∀ p o, h.writingBack p o → p = h₀.node) : Inv M (s.begin h₀) := by
  have hmem : ∀ h ∈ (s.begin h₀).handlers, h ∈ s.handlers ∨ h = h₀ := by
    intro h hh
    rcases List.mem_append.1 hh with hh | hh
    · exact .inl hh
    · exact .inr (List.mem_singleton.1 hh)
  constructor
  · intro h hh
    rcases hmem h hh with hh | rfl
    · exact hI.fits h hh
    · exact hfits
  · intro h hh h' hh' ho ho' hkey
    rcases hmem h hh with hold | rfl <;> rcases hmem h' hh' with hold' | rfl
    · exact hI.home h hold h' hold' ho ho' hkey
    · exact hhome h hold ho hkey
    · exact (hhome h' hold' ho' hkey.symm).symm
    · rfl
  · intro h hh h' hh' ho ho' hkey hp hg
    rcases hmem h hh with hold | rfl <;> rcases hmem h' hh' with hold' | rfl
    · exact hI.mixed h hold h' hold' ho ho' hkey hp hg
    · rw [hhome h hold ho hkey, hkey]
      exact ⟨hget h hold ho hkey hp hg, fun p o hb => absurd hb (hback p o)⟩
    · exact hput h' hold' ho' hkey.symm hg hp
    · rw [hp] at hg
      cases hg
  · intro h hh
    rcases hmem h hh with hh | rfl
    · exact (hI.settled h hh).of_nodes rfl
    · exact hsettled.of_nodes rfl
  · exact fun key => (hI.coherent key).of_nodes rfl

/-- No read is answered at the beginning. -/
theorem eq_sent_of_mem {peers : List ν} {calls : List (ν × ReadCall β)} {p : ν} {call : ReadCall β}
    (hstage : Stage.reading (peers.map fun peer => (peer, ReadCall.sent)) = .reading calls)
    (hmem : (p, call) ∈ calls) : call = .sent := by
  cases hstage
  obtain ⟨peer, -, heq⟩ := List.mem_map.1 hmem
  exact (Prod.mk.inj heq).2.symm

/-- A handler knows nothing at its beginning. -/
theorem settled_reading (s : Cluster ν β) (n : ν) (request : Request β) (peers : List ν) :
    Settled s ⟨n, request, .reading (peers.map fun peer => (peer, .sent))⟩ := by
  constructor
  · intro calls p hstage hmem
    cases eq_sent_of_mem hstage hmem
  · intro calls p v hstage hmem
    cases eq_sent_of_mem hstage hmem
  · rintro p o ⟨calls, hstage, hmem⟩
    cases eq_sent_of_mem hstage hmem
  · intro v calls p hstage
    cases hstage
  · rintro (hstage | ⟨v, hstage⟩) <;> cases hstage

theorem settled_invalidating (s : Cluster ν β) (n : ν) (request : Request β) (value : β)
    (peers : List ν) :
    Settled s ⟨n, request, .invalidating value (peers.map fun peer => (peer, false))⟩ := by
  constructor
  · intro calls p hstage
    cases hstage
  · intro calls p v hstage
    cases hstage
  · rintro p o ⟨calls, hstage, -⟩
    cases hstage
  · intro v calls p hstage hmem
    cases hstage
    obtain ⟨peer, -, heq⟩ := List.mem_map.1 hmem
    cases (Prod.mk.inj heq).2
  · rintro (hstage | ⟨v, hstage⟩) <;> cases hstage

end CacheNode
