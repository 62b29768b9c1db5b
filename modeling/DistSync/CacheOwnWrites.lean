/-
**A node reads what it has put.**

A put of a key answers at a node when all peers have been invalidated, the memory has been written
and the entry is in the local cache.  From then on the node should read this value until the next
put.  Two things can bring another value back.

A get that has missed its cache installs what it has found later, whatever has happened meanwhile,
and a write-back overwrites the memory and makes its object shared, even if that was invalidated.
Such a handler may have found its value before the put.  And a get at another node, where no cache
holds the key, falls back to the memory of its own node, which may still have what was put there
long ago.

When the handlers beside the put do the first nowhere, and hold no other value when it has answered,
every later get at the node returns the value, or one that such a fallback has found.

Main definitions:

* `CacheNode.Covered` — a put has done its work at a node;
* `CacheNode.Beside`, `CacheNode.Unspoilt` — the steps while the put runs, and after it;
* `CacheNode.Holds` — a value that a running handler has found;
* `CacheNode.Putting`, `CacheNode.Kept` — **the invariants while the put runs, and after it**.

Main results:

* `CacheNode.Putting.step`, `CacheNode.Kept.step` — their steps;
* `CacheNode.readYourWrites` — **every later get at the node returns the value**;
* `CacheNode.readYourWrites_fails` — two runs in which it returns another one.
-/

import DistSync.CacheHandlers

set_option relaxedAutoImplicit false
set_option autoImplicit false

namespace CacheNode

open Runs

variable {ν β : Type*}

/-! ### Steps while a put runs, and after it -/

/-- The action does not begin a put of the key. -/
def NoPut (k : String) : Action ν β → Prop
  | .put _ key _ => key ≠ k
  | _ => True

/-- The handler of a put has been to the node `m`: its peers are invalidated one by one, and at its
own node it has been when its entry is installed. -/
def Handler.covers (h : Handler ν β) (m : ν) : Prop :=
  match h.stage with
  | .invalidating _ calls => m ≠ h.node ∧ (m, false) ∉ calls
  | .writing _ => m ≠ h.node
  | _ => True

/-- The put of `v` has done its work at the node `m`. -/
def Covered (k : String) (v : β) (s : Cluster ν β) (m : ν) : Prop :=
  ∀ h ∈ s.handlers, h.request = .put k v → h.covers m

/-- **A step while the put runs at `n`.**  No other put of the key begins.  No handler brings another
value to a cache where the put has been, or writes one to the memory of `n` after it. -/
structure Beside (M : Setup ν) (n : ν) (k : String) (v : β) (s : Cluster ν β) (a : Action ν β) :
    Prop where
  noPut : NoPut k a
  caches : ∀ m w, Covered k v s m → Brings M s a m k w → w = v
  memory : ∀ w, Covered k v s n → Writes M s a n k w → w = v

/-- **A step after the put.**  No put of the key begins, and a get of it at another node that falls
back to the memory finds a value with `P` there. -/
structure Unspoilt (n : ν) (k : String) (P : β → Prop) (s : Cluster ν β) (a : Action ν β) :
    Prop where
  noPut : NoPut k a
  fallback : ∀ i h w, a = .resume i → s.handlers[i]? = some h → h.stage = .fetching →
    h.request.key = k → h.node ≠ n → (s.nodes h.node).memoryDb.get? k = some w → P w

/-- **A value of the key that a running handler has found**: it will install it or write it to the
memory of `n`, or it is about to answer with it. -/
inductive Holds (M : Setup ν) (n : ν) (k : String) (s : Cluster ν β) (h : Handler ν β) : β → Prop
  | found {p : ν} {calls : List (ν × ReadCall β)} {w : β} (hkey : h.request.key = k)
      (hstage : h.stage = .reading calls) (hcall : (p, .answered (some w)) ∈ calls) :
      Holds M n k s h w
  | writesBack {p : ν} {o : ℕ} {e : CacheEntry β} (hquery : M.queryKey h.request.key = some k)
      (hback : h.writingBack p o) (hobject : (s.nodes p).cache.objects[o]? = some e) :
      Holds M n k s h e.value
  | evicted {w : β} {response : Response β} (hnode : h.node = n)
      (hstage : h.stage = .evicting k w response) : Holds M n k s h w
  | answers {key : String} {u w : β} {state : Mesi} (hnode : h.node = n)
      (hrequest : h.request = .get k) (hstage : h.stage = .evicting key u (.value k w state)) :
      Holds M n k s h w

section Invariants

variable {M : Setup ν} {s s' : Cluster ν β} {a : Action ν β} {n m : ν} {k : String} {v : β}
  {P : β → Prop}

/-! ### While the put runs -/

/-- **The invariant while the put runs**: where it has been there is no other value. -/
structure Putting (n : ν) (k : String) (v : β) (s : Cluster ν β) : Prop where
  puts : ∀ h ∈ s.handlers, ∀ w, h.request = .put k w → h.node = n ∧ h.request = .put k v
  caches : ∀ m e, Covered k v s m → Valid s m k e → e.value = v
  memory : Covered k v s n → (s.nodes n).memoryDb.get? k = some v

/-- At its beginning the put has been nowhere. -/
theorem putting_begin (hothers : ∀ h ∈ s.handlers, ∀ w, h.request ≠ .put k w) :
    Putting n k v
      (s.begin ⟨n, .put k v, .invalidating v ((M.peers n).map fun peer => (peer, false))⟩) := by
  have hnowhere : ∀ m, ¬ Covered k v
      (s.begin ⟨n, .put k v, .invalidating v ((M.peers n).map fun peer => (peer, false))⟩) m := by
    intro m hcovered
    obtain ⟨hm, hcalled⟩ : m ≠ n ∧ (m, false) ∉ (M.peers n).map fun peer => (peer, false) :=
      hcovered _ (List.mem_append_right _ (List.mem_singleton_self _)) rfl
    exact hcalled (List.mem_map.2 ⟨m, M.all_peers n m hm, rfl⟩)
  refine ⟨fun h hmem w hrequest => ?_, fun m e hcovered => absurd hcovered (hnowhere m),
    fun hcovered => absurd hcovered (hnowhere n)⟩
  rcases List.mem_append.1 hmem with hmem | hmem
  · exact absurd hrequest (hothers h hmem w)
  · rw [List.mem_singleton.1 hmem] at hrequest ⊢
    cases hrequest
    exact ⟨rfl, rfl⟩

/-- No put of the key begins, so those that run have been running. -/
theorem puts_of_moves [DecidableEq ν] {Q : Handler ν β → Prop} (hnoPut : NoPut k a)
    (hmove : Moves M s a s') (hstage : ∀ h stage, Q h → Q { h with stage := stage })
    (hputs : ∀ h ∈ s.handlers, ∀ w, h.request = .put k w → Q h) :
    ∀ h ∈ s'.handlers, ∀ w, h.request = .put k w → Q h := by
  intro h hmem w hrequest
  have hgoes : ∀ {h : Handler ν β} {stage : Stage ν β}, h ∈ s.handlers → h.request = .put k w →
      Q { h with stage := stage } := fun hold heq => hstage _ _ (hputs _ hold w heq)
  cases follows_of_moves hmove h hmem with
  | same hold => exact hputs h hold w hrequest
  | get => cases hrequest
  | put ha =>
      subst ha
      cases hrequest
      exact absurd rfl hnoPut
  | read hi => exact hgoes (List.mem_of_getElem? hi) hrequest
  | readBack hi => exact hgoes (List.mem_of_getElem? hi) hrequest
  | invalidate ha hi => exact hgoes (List.mem_of_getElem? hi) hrequest
  | fetch hi => exact hgoes (List.mem_of_getElem? hi) hrequest
  | write hi => exact hgoes (List.mem_of_getElem? hi) hrequest
  | evict hold => exact hgoes hold hrequest

/-- **How the put gets to a node**: by an invalidation, and to its own node by its entry. -/
inductive Reaches (n m : ν) (k : String) (v : β) (s s' : Cluster ν β) : Prop
  | invalidated (hm : m ≠ n) (hcache : (s'.nodes m).cache = (s.nodes m).cache.invalidate k)
  | installed (hm : m = n) (hcache : (s'.nodes n).cache = ((s.nodes n).cache.put k ⟨v, .M⟩).1)
      (hmemory : (s'.nodes n).memoryDb.get? k = some v)

theorem mem_set_of_ne {α : Type*} {l : List α} {j : ℕ} {x y z : α} (hj : l[j]? = some x)
    (hmem : z ∈ l) (hne : z ≠ x) : z ∈ l.set j y := by
  obtain ⟨i, hi⟩ := List.mem_iff_getElem?.1 hmem
  refine List.mem_iff_getElem?.2 ⟨i, ?_⟩
  rw [List.getElem?_set_ne, hi]
  rintro rfl
  exact hne (Option.some.inj (hi.symm.trans hj))

variable [DecidableEq ν]

theorem covered_of_moves (hS : Sound M s) (hP : Putting n k v s) (hmove : Moves M s a s')
    (hcovered : Covered k v s' m) : Covered k v s m ∨ Reaches n m k v s s' := by
  by_contra hneither
  obtain ⟨hnot, hreaches⟩ := not_or.1 hneither
  refine hnot fun h hmem hrequest => ?_
  obtain ⟨hnode, -⟩ := hP.puts h hmem v hrequest
  have hkey : h.request.key = k := by rw [hrequest]; rfl
  cases goes_of_moves hmove hmem with
  | stays hnext => exact hcovered h hnext hrequest
  | read hstage => rw [Handler.covers, hstage]; trivial
  | fetch hstage => rw [Handler.covers, hstage]; trivial
  | @invalidate j value calls peer hstage hj hcache hnext =>
      rw [Handler.covers, hstage]
      obtain ⟨hm, hcalled⟩ := hcovered _ hnext hrequest
      refine ⟨hm, fun hcall => ?_⟩
      by_cases hpeer : m = peer
      · subst hpeer
        exact hreaches (.invalidated (hnode ▸ hm) (hkey ▸ hcache))
      · exact hcalled (mem_set_of_ne hj hcall fun heq => hpeer (Prod.mk.inj heq).1)
  | write hstage hcalls hnext =>
      rw [Handler.covers, hstage]
      exact ⟨hcovered _ hnext hrequest, fun hcall => Bool.false_ne_true (hcalls _ hcall)⟩
  | installs hinstalls hcache hmemory =>
      cases hinstalls with
      | found hi hstage => rw [Handler.covers, hstage]; trivial
      | fetched hi hstage => rw [Handler.covers, hstage]; trivial
      | @written i h value hi hstage =>
          rw [Handler.covers, hstage]
          have hput := request_of_apt_writing (hS.apt h hmem) hstage
          obtain rfl : v = value := by
            rw [hrequest] at hput
            exact (Request.put.inj hput).2
          have hwritten := hmemory v hstage
          rw [hkey, hnode] at hwritten hcache
          exact fun hm => hreaches (.installed (hm.trans hnode) hcache hwritten)
  | unknown hstage => rw [Handler.covers, hstage]; trivial
  | ends hstage => rw [Handler.covers, hstage]; trivial

/-- **A step while the put runs.** -/
theorem Putting.step (hP : Putting n k v s) (hS : Sound M s) (hok : Beside M n k v s a)
    (hmove : Moves M s a s') : Putting n k v s' := by
  refine ⟨puts_of_moves hok.noPut hmove (fun _ _ hQ => hQ) hP.puts, fun m e' hcovered he' => ?_,
    fun hcovered => ?_⟩
  · rcases covered_of_moves hS hP hmove hcovered with hold | hreaches
    · rcases valid_of_moves hmove he' with ⟨e, he, hvalue⟩ | hbrings
      · rw [← hvalue]
        exact hP.caches m e hold he
      · exact hok.caches m _ hold hbrings
    · obtain ⟨hcopy, hvalid⟩ := he'
      cases hreaches with
      | invalidated hm hcache =>
          rw [hcache] at hcopy
          exact absurd (LruCache.copy_invalidate_self hcopy) hvalid
      | installed hm hcache hmemory =>
          subst hm
          rw [hcache] at hcopy
          rw [LruCache.copy_put_self _ hcopy]
  · rcases covered_of_moves hS hP hmove hcovered with hold | hreaches
    · rcases memory_of_moves hmove n k with hsame | ⟨w, hwrites, hmemory⟩
      · rw [hsame]
        exact hP.memory hold
      · rw [hmemory, hok.memory w hold hwrites]
    · cases hreaches with
      | invalidated hm => exact absurd rfl hm
      | installed hm hcache hmemory => exact hmemory

/-! ### After the put -/

/-- **The invariant after the put**: the caches, the memory of `n` and the running handlers hold
values with `P` only. -/
structure Kept (M : Setup ν) (n : ν) (k : String) (P : β → Prop) (s : Cluster ν β) : Prop where
  puts : ∀ h ∈ s.handlers, ∀ w, h.request ≠ .put k w
  caches : ∀ m e, Valid s m k e → P e.value
  memory : ∃ w, (s.nodes n).memoryDb.get? k = some w ∧ P w
  held : ∀ h ∈ s.handlers, ∀ w, Holds M n k s h w → P w

omit [DecidableEq ν] in
/-- When the put has ended it has been everywhere. -/
theorem Putting.kept (hP : Putting n k v s) (hv : P v)
    (hdone : ∀ h ∈ s.handlers, ∀ w, h.request ≠ .put k w)
    (hheld : ∀ h ∈ s.handlers, ∀ w, Holds M n k s h w → w = v) : Kept M n k P s := by
  have hcovered : ∀ m, Covered k v s m := fun m h hmem hrequest => absurd hrequest (hdone h hmem v)
  refine ⟨hdone, fun m e he => ?_, ⟨v, hP.memory (hcovered n), hv⟩, fun h hmem w hholds => ?_⟩
  · rw [hP.caches m e (hcovered m) he]
    exact hv
  · rw [hheld h hmem w hholds]
    exact hv

omit [DecidableEq ν] in
/-- Nobody writes the value of a put. -/
theorem Kept.not_writing {h : Handler ν β} {w : β} (hK : Kept M n k P s) (hS : Sound M s)
    (hmem : h ∈ s.handlers) (hstage : h.stage = .writing w) : h.request.key ≠ k := fun hkey =>
  hK.puts h hmem w (hkey ▸ request_of_apt_writing (hS.apt h hmem) hstage)

omit [DecidableEq ν] in
/-- What is installed under the key, and what will be answered. -/
theorem Kept.installs {h : Handler ν β} {entry : CacheEntry β} {response : Response β}
    (hK : Kept M n k P s) (hS : Sound M s) (hok : Unspoilt n k P s a)
    (hinstalls : Installs s a h entry response) (hkey : h.request.key = k) :
    P entry.value ∧ ∃ state, response = .value k entry.value state := by
  subst hkey
  cases hinstalls with
  | found hi hstage hanswers hfound =>
      obtain ⟨answer, hmem, hsome⟩ := List.exists_of_findSome?_eq_some hfound
      obtain rfl : answer = some _ := hsome
      obtain ⟨p, hp⟩ := (readAnswers_eq_some hanswers).2 _ hmem
      exact ⟨hK.held h (List.mem_of_getElem? hi) _ (.found rfl hstage hp), _, rfl⟩
  | @fetched i h value hi hstage hmemory =>
      refine ⟨?_, _, rfl⟩
      by_cases hnode : h.node = n
      · obtain ⟨w, hw, hP⟩ := hK.memory
        rw [← hnode, hmemory] at hw
        cases hw
        exact hP
      · exact hok.fallback i h value rfl hi hstage rfl hnode hmemory
  | written hi hstage => exact absurd rfl (hK.not_writing hS (List.mem_of_getElem? hi) hstage)

omit [DecidableEq ν] in
/-- A write-back of the key writes such a value. -/
theorem Kept.writesBack {p : ν} {o : ℕ} {key : String} {entry : CacheEntry β}
    (hK : Kept M n k P s) (hback : WritesBack M s a p o key entry) (hkey : key = k) :
    P entry.value := by
  subst hkey
  obtain ⟨i, j, h, calls, -, hi, hstage, hj, hquery⟩ := hback.running
  exact hK.held h (List.mem_of_getElem? hi) _
    (.writesBack hquery ⟨calls, hstage, List.mem_of_getElem? hj⟩ hback.object)

/-- An object that is written back has kept its value. -/
theorem Kept.writtenBack {h : Handler ν β} {calls : List (ν × ReadCall β)} {p : ν} {o : ℕ}
    {e : CacheEntry β} (hK : Kept M n k P s) (hS : Sound M s) (hmove : Moves M s a s')
    (hmem : h ∈ s.handlers) (hquery : M.queryKey h.request.key = some k)
    (hstage : h.stage = .reading calls) (hcall : (p, .writingBack o) ∈ calls)
    (hobject : (s'.nodes p).cache.objects[o]? = some e) : P e.value := by
  obtain ⟨e₀, he₀⟩ := (hS.owned h hmem p o ⟨calls, hstage, hcall⟩).object
  obtain ⟨e', he', hvalue⟩ := (keeps_of_moves hmove p).value o e₀ he₀
  rw [hobject] at he'
  cases he'
  rw [hvalue]
  exact hK.held h hmem _ (.writesBack hquery ⟨calls, hstage, hcall⟩ he₀)

/-- What the handler of a get holds when one of its calls has gone on. -/
theorem Kept.holds_setCall {h : Handler ν β} {calls : List (ν × ReadCall β)} {j : ℕ} {peer : ν}
    {call : ReadCall β} {w : β} (hK : Kept M n k P s) (hS : Sound M s) (hmove : Moves M s a s')
    (hmem : h ∈ s.handlers) (hstage : h.stage = .reading calls)
    (hanswered : h.request.key = k → call = .answered (some w) → P w)
    (hwritingBack : ∀ o e, M.queryKey h.request.key = some k → call = .writingBack o →
      (s'.nodes peer).cache.objects[o]? = some e → P e.value)
    (hholds : Holds M n k s' { h with stage := .reading (calls.set j (peer, call)) } w) : P w := by
  cases hholds with
  | found hkey hstage' hcall =>
      cases hstage'
      rcases List.mem_or_eq_of_mem_set hcall with hcall | heq
      · exact hK.held h hmem w (.found hkey hstage hcall)
      · exact hanswered hkey (Prod.mk.inj heq).2.symm
  | writesBack hquery hwrites hobject =>
      obtain ⟨calls', hstage', hcall⟩ := hwrites
      cases hstage'
      rcases List.mem_or_eq_of_mem_set hcall with hcall | heq
      · exact hK.writtenBack hS hmove hmem hquery hstage hcall hobject
      · obtain ⟨rfl, hsame⟩ := Prod.mk.inj heq
        exact hwritingBack _ _ hquery hsame.symm hobject
  | evicted hnode hstage' => cases hstage'
  | answers hnode hrequest hstage' => cases hstage'

/-- What a handler holds after a step. -/
theorem Kept.holds {h : Handler ν β} {w : β} (hK : Kept M n k P s) (hS : Sound M s)
    (hquery : M.queryKey k = some k) (hok : Unspoilt n k P s a) (hmove : Moves M s a s')
    (hmem : h ∈ s'.handlers) (hholds : Holds M n k s' h w) : P w := by
  cases follows_of_moves hmove h hmem with
  | same hold =>
      cases hholds with
      | found hkey hstage hcall => exact hK.held h hold w (.found hkey hstage hcall)
      | writesBack hquery hwrites hobject =>
          obtain ⟨calls, hstage, hcall⟩ := hwrites
          exact hK.writtenBack hS hmove hold hquery hstage hcall hobject
      | evicted hnode hstage => exact hK.held h hold w (.evicted hnode hstage)
      | answers hnode hrequest hstage => exact hK.held h hold w (.answers hnode hrequest hstage)
  | get =>
      cases hholds with
      | found hkey hstage hcall => cases eq_sent_of_mem hstage hcall
      | writesBack hquery hwrites =>
          obtain ⟨calls, hstage, hcall⟩ := hwrites
          cases eq_sent_of_mem hstage hcall
      | evicted hnode hstage => cases hstage
      | answers hnode hrequest hstage => cases hstage
  | @read i j h₁ calls peer hi hstage hj =>
      refine hK.holds_setCall hS hmove (List.mem_of_getElem? hi) hstage (fun hkey hread => ?_)
        (fun o e hasked hread hobject => ?_) hholds
      · -- the peer answers from its cache
        obtain ⟨key, e, hasked, hcopy, hvalid, rfl⟩ := internalRead_answered hread
        obtain rfl : k = key := by
          rw [hkey, hquery] at hasked
          exact Option.some.inj hasked
        exact hK.caches _ e ⟨hcopy, hvalid⟩
      · -- the peer begins to write its entry back
        obtain ⟨key, e₀, hasked', -, he₀, hcopy, hvalid⟩ := internalRead_writingBack hread
        obtain rfl : k = key := Option.some.inj (hasked.symm.trans hasked')
        obtain ⟨e', he', hvalue⟩ := (keeps_of_moves hmove peer).value _ e₀ he₀
        rw [hobject] at he'
        cases he'
        rw [hvalue]
        exact hK.caches _ e₀ ⟨hcopy, hvalid⟩
  | @readBack i j h₁ calls peer o entry hi hstage hj hobject =>
      have hold := List.mem_of_getElem? hi
      refine hK.holds_setCall hS hmove hold hstage (fun hkey hcall => ?_)
        (fun _ _ _ hcall => by cases hcall) hholds
      -- the peer answers with what it has written back
      cases hcall
      refine hK.held h₁ hold _ (.writesBack ?_ ⟨calls, hstage, List.mem_of_getElem? hj⟩ hobject)
      rw [hkey, hquery]
  | @evict h₁ entry evicted response key hold hinstalls hput hmodified =>
      cases hholds with
      | found hkey hstage hcall => cases hstage
      | writesBack hasked hwrites hobject =>
          obtain ⟨calls, hstage, -⟩ := hwrites
          cases hstage
      | evicted hnode hstage =>
          cases hstage
          rcases LruCache.copy_of_evicted hput with ⟨hkey, rfl⟩ | ⟨-, hcopy⟩
          · exact (hK.installs hS hok hinstalls hkey.symm).1
          · exact hK.caches h₁.node evicted ⟨hcopy, by rw [hmodified]; simp⟩
      | answers hnode hrequest hstage =>
          cases hstage
          obtain ⟨hP, state, hresponse⟩ := hK.installs hS hok hinstalls
            (show h₁.request.key = k by rw [show h₁.request = .get k from hrequest]; rfl)
          cases hresponse
          exact hP
  | _ =>
      -- the other places hold no value of the key
      cases hholds with
      | found hkey hstage hcall => cases hstage
      | writesBack hasked hwrites hobject =>
          obtain ⟨calls, hstage, -⟩ := hwrites
          cases hstage
      | evicted hnode hstage => cases hstage
      | answers hnode hrequest hstage => cases hstage

/-- **A step after the put.** -/
theorem Kept.step (hK : Kept M n k P s) (hS : Sound M s) (hquery : M.queryKey k = some k)
    (hok : Unspoilt n k P s a) (hmove : Moves M s a s') : Kept M n k P s' := by
  refine ⟨fun h hmem w hrequest => ?_, fun m e' he' => ?_, ?_,
    fun h hmem w hholds => hK.holds hS hquery hok hmove hmem hholds⟩
  · exact puts_of_moves (Q := fun _ => False) hok.noPut hmove (fun _ _ hQ => hQ)
      (fun h hmem w hrequest => hK.puts h hmem w hrequest) h hmem w hrequest
  · rcases valid_of_moves hmove he' with ⟨e, he, hvalue⟩ | hbrings
    · rw [← hvalue]
      exact hK.caches m e he
    · cases hbrings with
      | installed hinstalls hnode hkey hvalue =>
          rw [← hvalue]
          exact (hK.installs hS hok hinstalls hkey).1
      | @revived o key entry hback hentry hvalue =>
          -- the object of the key that was written back belongs to the key that was asked for
          rw [← hvalue]
          refine hK.writesBack hback ?_
          obtain ⟨i, j, h, calls, -, hi, hstage, hj, hasked⟩ := hback.running
          have hown := (hS.owned h (List.mem_of_getElem? hi) m o
            ⟨calls, hstage, List.mem_of_getElem? hj⟩).owner k hentry
          exact Option.some.inj (hasked.symm.trans hown)
  · obtain ⟨w₀, hw₀, hP⟩ := hK.memory
    rcases memory_of_moves hmove n k with hsame | ⟨w, hwrites, hmemory⟩
    · exact ⟨w₀, by rw [hsame, hw₀], hP⟩
    · refine ⟨w, hmemory, ?_⟩
      cases hwrites with
      | put ha hi hstage hnode hkey =>
          exact absurd hkey (hK.not_writing hS (List.mem_of_getElem? hi) hstage)
      | readBack hback hvalue =>
          rw [← hvalue]
          exact hK.writesBack hback rfl
      | evicted ha hi hstage hnode =>
          exact hK.held _ (List.mem_of_getElem? hi) w (.evicted hnode hstage)

omit [DecidableEq ν] in
/-- **What a get at the node is answered after the put.** -/
theorem Kept.tells {response : Response β} (hK : Kept M n k P s) (hS : Sound M s)
    (hkey : k ≠ "") (hok : Unspoilt n k P s a) (htells : Tells s a (n, .get k, response)) :
    ∃ w state, response = .value k w state ∧ P w := by
  generalize hanswer : ((n, Request.get k, response) : Answer ν β) = answer at htells
  cases htells with
  | refused hempty =>
      cases hanswer
      exact absurd hempty hkey
  | @hit n key entry ha hvalid =>
      cases hanswer
      exact ⟨_, _, rfl, hK.caches n entry hvalid⟩
  | @unknown i h ha hi hstage hmemory =>
      obtain ⟨hnode, hrequest, -⟩ : n = h.node ∧ Request.get k = h.request ∧ _ := by
        simpa using hanswer
      obtain ⟨w, hw, -⟩ := hK.memory
      rw [← hnode, ← hrequest] at hmemory
      cases hw.symm.trans hmemory
  | @installed h entry response' hmem hinstalls =>
      obtain ⟨hnode, hrequest, rfl⟩ : n = h.node ∧ Request.get k = h.request ∧
        response = response' := by simpa using hanswer
      obtain ⟨hP, state, hresponse⟩ := hK.installs hS hok hinstalls (by rw [← hrequest]; rfl)
      exact ⟨_, state, hresponse, hP⟩
  | @evicted i h key value response' ha hi hstage =>
      obtain ⟨hnode, hrequest, rfl⟩ : n = h.node ∧ Request.get k = h.request ∧
        response = response' := by simpa using hanswer
      have hmem := List.mem_of_getElem? hi
      have hapt := hS.apt h hmem
      rw [Handler.apt, hstage, ← hrequest] at hapt
      cases response with
      | value key' w state =>
          obtain rfl : key' = k := hapt
          exact ⟨w, state, rfl, hK.held h hmem w (.answers hnode.symm hrequest.symm hstage)⟩
      | ok key' => exact hapt.elim
      | error message status => exact hapt.elim

/-! ### Reading what was put -/

omit [DecidableEq ν] in
/-- The steps of a handler of the node bring nothing back. -/
theorem Attends.unspoilt {i : ℕ} (hok : Attends n (.get k) i s a) : Unspoilt n k P s a := by
  obtain ⟨hform, h, hi, hnode, -⟩ := hok
  refine ⟨?_, fun i' h' w ha hi' hstage hkey hother hmemory => absurd ?_ hother⟩
  · rcases hform with ⟨j, rfl⟩ | ⟨j, rfl⟩ | ⟨j, rfl⟩ | rfl <;> trivial
  · rcases hform with ⟨j, rfl⟩ | ⟨j, rfl⟩ | ⟨j, rfl⟩ | rfl <;> cases ha
    rw [hi] at hi'
    cases hi'
    exact hnode

/-- What the node knows after the put, with the answers that it has given since. -/
theorem kept_run {t : Cluster ν β} (hkey : k ≠ "") (hquery : M.queryKey k = some k)
    (hS : Sound M s) (hK : Kept M n k P s) (hrun : Run (step M) (Unspoilt n k P) s t) :
    Sound M t ∧ Kept M n k P t ∧
      ∀ response, (n, .get k, response) ∈ t.answers.drop s.answers.length →
        ∃ w state, response = .value k w state ∧ P w := by
  refine hrun.invariant (I := fun t => Sound M t ∧ Kept M n k P t ∧
    ∀ response, (n, .get k, response) ∈ t.answers.drop s.answers.length →
      ∃ w state, response = .value k w state ∧ P w) (fun t a t' ⟨hS, hK, hanswers⟩ hok hstep => ?_)
    ⟨hS, hK, fun response hmem => ?_⟩
  · have hmove := moves_of_step hstep
    refine ⟨hS.step hmove, hK.step hS hquery hok hmove, fun response hmem => ?_⟩
    rcases tells_of_moves hmove with heq | ⟨answer, htells, heq⟩
    · exact hanswers response (heq ▸ hmem)
    · rw [heq, List.drop_append] at hmem
      rcases List.mem_append.1 hmem with hmem | hmem
      · exact hanswers response hmem
      · rw [← List.mem_singleton.1 (List.mem_of_mem_drop hmem)] at htells
        exact hK.tells hS hkey hok htells
  · rw [List.drop_length] at hmem
    cases hmem

/-- **Every later get at the node returns the value.**  A put of `v` runs at the node `n`, and no
other put of the key runs with it or begins after it.  Beside it no handler brings another value to
where it has been, and when it has answered none holds another one.  `P` is true of `v`, and of the
values that gets at other nodes later find in their own memories. -/
theorem readYourWrites {s₀ s₁ s₂ s₃ : Cluster ν β} (hkey : k ≠ "") (hquery : M.queryKey k = some k)
    (hv : P v) (hbefore : Run (step M) anyAction (initial M) s₀)
    (hothers : ∀ h ∈ s₀.handlers, ∀ w, h.request ≠ .put k w)
    (hbegin : step M s₀ (.put n k v) = some s₁) (hput : Run (step M) (Beside M n k v) s₁ s₂)
    (hdone : ∀ h ∈ s₂.handlers, ∀ w, h.request ≠ .put k w)
    (hheld : ∀ h ∈ s₂.handlers, ∀ w, Holds M n k s₂ h w → w = v)
    (hafter : Run (step M) (Unspoilt n k P) s₂ s₃) :
    (∀ response, (n, .get k, response) ∈ s₃.answers.drop s₂.answers.length →
      ∃ w state, response = .value k w state ∧ P w) ∧
    ∀ i h, s₃.handlers[i]? = some h → h.node = n → h.request = .get k →
      ∃ s₄ w state, Run (step M) (Attends n (.get k) i) s₃ s₄ ∧
        s₄.answers = s₃.answers ++ [(n, .get k, .value k w state)] ∧ P w := by
  have hS₁ : Sound M s₁ := (sound_run sound_initial hbefore).step (moves_of_step hbegin)
  have hP₁ : Putting n k v s₁ := by
    rw [step, if_neg hkey] at hbegin
    cases hbegin
    exact putting_begin hothers
  obtain ⟨hS₂, hP₂⟩ := hput.invariant (I := fun s => Sound M s ∧ Putting n k v s)
    (fun s a s' hI hok hstep =>
      ⟨hI.1.step (moves_of_step hstep), hI.2.step hI.1 hok (moves_of_step hstep)⟩) ⟨hS₁, hP₁⟩
  have hK₂ : Kept M n k P s₂ := hP₂.kept hv hdone hheld
  obtain ⟨hS₃, hK₃, hanswers⟩ := kept_run hkey hquery hS₂ hK₂ hafter
  refine ⟨hanswers, fun i h hi hnode hrequest => ?_⟩
  obtain ⟨s₄, response, hrun, hanswer⟩ := exists_answered hS₃ hi
  rw [hnode, hrequest] at hrun hanswer
  -- the answer is one of those that the node gives later
  have hlater := (kept_run hkey hquery hS₃ hK₃ (hrun.mono fun _ _ hok => hok.unspoilt)).2.2 response
    (by rw [hanswer, List.drop_left]; exact List.mem_singleton_self _)
  obtain ⟨w, state, rfl, hw⟩ := hlater
  exact ⟨s₄, w, state, hrun, hanswer, hw⟩

end Invariants

/-! ### Two nodes -/

/-- The handler is at the first two places of a put of the value. -/
def Stage.puts [DecidableEq β] (v : β) : Stage ν β → Bool
  | .invalidating _ _ => true
  | .writing w => decide (w = v)
  | _ => false

/-- Nothing is brought anywhere beside a put that runs alone. -/
theorem beside_of_alone [DecidableEq β] {M : Setup ν} {n : ν} {k : String} {v : β}
    {s : Cluster ν β} {a : Action ν β} (hnoPut : NoPut k a)
    (halone : ∀ h ∈ s.handlers, h.stage.puts v = true) : Beside M n k v s a := by
  have hback : ∀ {p : ν} {o : ℕ} {key : String} {entry : CacheEntry β},
      ¬ WritesBack M s a p o key entry := by
    intro p o key entry hback
    obtain ⟨i, j, h, calls, -, hi, hstage, -⟩ := hback.running
    have hputs := halone h (List.mem_of_getElem? hi)
    rw [hstage] at hputs
    cases hputs
  have hwriting : ∀ {i : ℕ} {h : Handler ν β} {w : β}, s.handlers[i]? = some h →
      h.stage = .writing w → w = v := by
    intro i h w hi hstage
    have hputs := halone h (List.mem_of_getElem? hi)
    rw [hstage] at hputs
    exact of_decide_eq_true hputs
  refine ⟨hnoPut, fun m w _ hbrings => ?_, fun w _ hwrites => ?_⟩
  · cases hbrings with
    | installed hinstalls hnode hkey hvalue =>
        subst hvalue
        have hputs := halone _ hinstalls.mem
        cases hinstalls with
        | found hi hstage =>
            rw [hstage] at hputs
            cases hputs
        | fetched hi hstage =>
            rw [hstage] at hputs
            cases hputs
        | written hi hstage => exact hwriting hi hstage
    | revived hrevived => exact absurd hrevived hback
  · cases hwrites with
    | put ha hi hstage => exact hwriting hi hstage
    | readBack hrevived => exact absurd hrevived hback
    | evicted ha hi hstage =>
        have hputs := halone _ (List.mem_of_getElem? hi)
        rw [hstage] at hputs
        cases hputs

/-- Gets at the node itself bring nothing back. -/
theorem unspoilt_of_home {n : ν} {k : String} {P : β → Prop} {s : Cluster ν β} {a : Action ν β}
    (hnoPut : NoPut k a) (hhome : ∀ h ∈ s.handlers, h.node = n) : Unspoilt n k P s a :=
  ⟨hnoPut, fun _ h _ _ hi _ _ hother => absurd (hhome h (List.mem_of_getElem? hi)) hother⟩

instance (k : String) : DecidablePred (NoPut k : Action ν β → Prop)
  | .put _ key _ => inferInstanceAs (Decidable (key ≠ k))
  | .get _ _ | .internalRead _ _ | .internalReadDone _ _ | .internalInvalidate _ _ | .resume _ =>
      .isTrue trivial

/-- The handler waits for the memory of its node. -/
def Stage.isFetching : Stage ν β → Bool
  | .fetching => true
  | _ => false

/-- A put of the key runs on its own. -/
def PutAlone (s : Cluster (Fin 2) ℕ) (a : Action (Fin 2) ℕ) : Prop :=
  NoPut "k" a ∧ ∀ h ∈ s.handlers, h.stage.puts 1 = true

instance (s : Cluster (Fin 2) ℕ) : DecidablePred (PutAlone s) := fun _ =>
  inferInstanceAs (Decidable (_ ∧ _))

/-- After that only one node serves requests. -/
def AtNode (n : Fin 2) (s : Cluster (Fin 2) ℕ) (a : Action (Fin 2) ℕ) : Prop :=
  NoPut "k" a ∧ ∀ h ∈ s.handlers, h.node = n

instance (n : Fin 2) (s : Cluster (Fin 2) ℕ) : DecidablePred (AtNode n s) := fun _ =>
  inferInstanceAs (Decidable (_ ∧ _))

/-- Another key takes the place of `k` in the cache, and `k` is read again. -/
def evictedThenRead (n : ν) : List (Action ν ℕ) :=
  putServed n "l" 3 ++ [.resume 0, .get n "k", .internalRead 0 0, .internalRead 0 1, .resume 0,
    .resume 0, .resume 0]

/-- The first node reads its own value after it has been evicted, and not an older one of the second
node. -/
theorem readYourWrites_evictedThenRead :
    ∃ s₂ s₃ : Cluster (Fin 2) ℕ, Run (step pair) (Unspoilt 0 "k" (· = 1)) s₂ s₃ ∧
      (∃ response, (0, .get "k", response) ∈ s₃.answers.drop s₂.answers.length) ∧
      ∀ response, (0, .get "k", response) ∈ s₃.answers.drop s₂.answers.length →
        ∃ state, response = .value "k" 1 state := by
  obtain ⟨s₀, hbefore, hidle, hserved⟩ := Run.exists_of_exec (step pair) anyAction (initial pair)
    (putServed 1 "k" 5)
    (fun s₀ => s₀.handlers = [] ∧ ((step pair s₀ (.put 0 "k" 1)).bind fun s₁ =>
      exec (step pair) PutAlone s₁ (putServed 0 "k" 1).tail).any (fun s₂ =>
        decide (s₂.handlers = []) &&
          (exec (step pair) (AtNode 0) s₂ (evictedThenRead 0)).any fun s₃ =>
            decide (∃ answer ∈ s₃.answers.drop s₂.answers.length,
              answer.1 = 0 ∧ answer.2.1 = .get "k")) = true) (by decide +kernel)
  obtain ⟨s₂, hserved₂, hlater⟩ := (Option.any_eq_true _ _).1 hserved
  obtain ⟨s₁, hbegin, hexec⟩ := Option.bind_eq_some_iff.1 hserved₂
  obtain ⟨hidle₂, hread⟩ := Bool.and_eq_true_iff.1 hlater
  obtain ⟨s₃, hexec₃, hanswered⟩ := (Option.any_eq_true _ _).1 hread
  obtain ⟨⟨n, request, response⟩, hmem, rfl, rfl⟩ := of_decide_eq_true hanswered
  have hafter : Run (step pair) (Unspoilt 0 "k" (· = 1)) s₂ s₃ :=
    (Run.of_exec _ hexec₃).mono fun _ _ hok => unspoilt_of_home hok.1 hok.2
  have hnone : ∀ s : Cluster (Fin 2) ℕ, s.handlers = [] → ∀ h, h ∉ s.handlers :=
    fun s hs h hmem => List.not_mem_nil (hs ▸ hmem)
  refine ⟨s₂, s₃, hafter, ⟨response, hmem⟩, fun response hresponse => ?_⟩
  obtain ⟨w, state, rfl, rfl⟩ := (readYourWrites (P := (· = 1)) (by decide) rfl rfl hbefore
    (fun h hmem => absurd hmem (hnone s₀ hidle h)) hbegin
    ((Run.of_exec _ hexec).mono fun _ _ hok => beside_of_alone hok.1 hok.2)
    (fun h hmem => absurd hmem (hnone s₂ (of_decide_eq_true hidle₂) h))
    (fun h hmem => absurd hmem (hnone s₂ (of_decide_eq_true hidle₂) h)) hafter).1 response hresponse
  exact ⟨state, rfl⟩

/-! ### Two ways to an older value -/

/-- The state is reached after a put at the node, with no other put of the key beside or after it. -/
def AfterPut (ok : Cluster (Fin 2) ℕ → Action (Fin 2) ℕ → Prop) (n : Fin 2) (k : String) (v : ℕ)
    (s₃ : Cluster (Fin 2) ℕ) : Prop :=
  ∃ s₀ s₁ s₂, Run (step pair) ok (initial pair) s₀ ∧
    (∀ h ∈ s₀.handlers, ∀ w, h.request ≠ .put k w) ∧ step pair s₀ (.put n k v) = some s₁ ∧
    Run (step pair) (fun s a => ok s a ∧ NoPut k a) s₁ s₂ ∧
    (∀ h ∈ s₂.handlers, ∀ w, h.request ≠ .put k w) ∧
    Run (step pair) (fun s a => ok s a ∧ NoPut k a) s₂ s₃

/-- No get falls back to a memory. -/
def NoFallback (s : Cluster (Fin 2) ℕ) : Action (Fin 2) ℕ → Prop
  | .resume i => (s.handlers[i]?.any fun h => h.stage.isFetching) = false
  | _ => True

instance (s : Cluster (Fin 2) ℕ) : DecidablePred (NoFallback s)
  | .resume _ => inferInstanceAs (Decidable (_ = _))
  | .get _ _ | .put _ _ _ | .internalRead _ _ | .internalReadDone _ _ | .internalInvalidate _ _ =>
      .isTrue trivial

/-- A state after a put of `2` at the first node, from the actions before it, those that serve it,
and those after it. -/
theorem exists_afterPut (ok : Cluster (Fin 2) ℕ → Action (Fin 2) ℕ → Prop)
    [∀ s a, Decidable (ok s a)] (before serve after : List (Action (Fin 2) ℕ))
    (h : (exec (step pair) ok (initial pair) before).any (fun s₀ =>
      decide (∀ h ∈ s₀.handlers, h.isPut = false) &&
        ((step pair s₀ (.put 0 "k" 2)).bind fun s₁ =>
          exec (step pair) (fun s a => ok s a ∧ NoPut "k" a) s₁ serve).any fun s₂ =>
            decide (∀ h ∈ s₂.handlers, h.isPut = false) &&
              (exec (step pair) (fun s a => ok s a ∧ NoPut "k" a) s₂ after).any fun s₃ =>
                ((step pair s₃ (.get 0 "k")).any fun s₄ => decide
                  (s₄.answers = s₃.answers ++ [(0, .get "k", .value "k" 1 .S)]))) = true) :
    ∃ s₃ s₄, AfterPut ok 0 "k" 2 s₃ ∧ step pair s₃ (.get 0 "k") = some s₄ ∧
      s₄.answers = s₃.answers ++ [(0, .get "k", .value "k" 1 .S)] := by
  have hnoPut : ∀ s : Cluster (Fin 2) ℕ, (∀ h ∈ s.handlers, h.isPut = false) →
      ∀ h ∈ s.handlers, ∀ w, h.request ≠ .put "k" w := by
    intro s hs h hmem w hrequest
    have hget := hs h hmem
    rw [Handler.isPut, hrequest] at hget
    cases hget
  obtain ⟨s₀, hbefore, h⟩ := (Option.any_eq_true _ _).1 h
  obtain ⟨hothers, h⟩ := Bool.and_eq_true_iff.1 h
  obtain ⟨s₂, hserved, h⟩ := (Option.any_eq_true _ _).1 h
  obtain ⟨s₁, hbegin, hexec⟩ := Option.bind_eq_some_iff.1 hserved
  obtain ⟨hdone, h⟩ := Bool.and_eq_true_iff.1 h
  obtain ⟨s₃, hafter, h⟩ := (Option.any_eq_true _ _).1 h
  obtain ⟨s₄, hget, hanswer⟩ := (Option.any_eq_true _ _).1 h
  exact ⟨s₃, s₄, ⟨s₀, s₁, s₂, Run.of_exec _ hbefore, hnoPut s₀ (of_decide_eq_true hothers), hbegin,
    Run.of_exec _ hexec, hnoPut s₂ (of_decide_eq_true hdone), Run.of_exec _ hafter⟩, hget,
    of_decide_eq_true hanswer⟩

/-- The value is evicted at the node `n`, and the node `m` finds in its memory what was put there
before. -/
def evictedThenFallback (n m : ν) : List (Action ν ℕ) :=
  putServed n "l" 3 ++ [.resume 0, .get m "k", .internalRead 0 0, .internalRead 0 1, .resume 0,
    .resume 0, .get n "k", .internalRead 0 0, .internalRead 0 1, .resume 0, .resume 0]

/-- A get at the node `n` has found the value of the node `m` when the put begins. -/
def readBeforePut (n m : ν) : List (Action ν ℕ) :=
  putServed m "k" 1 ++ [.get n "k", .internalRead 0 0, .internalRead 0 1, .internalReadDone 0 1]

/-- A get that begins after the put returns the older value, though no two requests overlap, and
though no get falls back to a memory. -/
theorem readYourWrites_fails :
    (¬ ∀ s₃ s₄ : Cluster (Fin 2) ℕ, ∀ response, AfterPut Quiet 0 "k" 2 s₃ →
      step pair s₃ (.get 0 "k") = some s₄ →
      s₄.answers = s₃.answers ++ [(0, .get "k", response)] →
        ∃ state, response = .value "k" 2 state) ∧
    ¬ ∀ s₃ s₄ : Cluster (Fin 2) ℕ, ∀ response, AfterPut NoFallback 0 "k" 2 s₃ →
      step pair s₃ (.get 0 "k") = some s₄ →
      s₄.answers = s₃.answers ++ [(0, .get "k", response)] →
        ∃ state, response = .value "k" 2 state := by
  constructor
  · intro hall
    obtain ⟨s₃, s₄, hafter, hget, hanswer⟩ := exists_afterPut Quiet (putServed 1 "k" 1)
      (putServed 0 "k" 2).tail (evictedThenFallback 0 1) (by decide +kernel)
    obtain ⟨state, hresponse⟩ := hall s₃ s₄ _ hafter hget hanswer
    cases hresponse
  · intro hall
    obtain ⟨s₃, s₄, hafter, hget, hanswer⟩ := exists_afterPut NoFallback (readBeforePut 0 1)
      [.internalInvalidate 1 0, .internalInvalidate 1 1, .resume 1, .resume 1] [.resume 0]
      (by decide +kernel)
    obtain ⟨state, hresponse⟩ := hall s₃ s₄ _ hafter hget hanswer
    cases hresponse

end CacheNode
