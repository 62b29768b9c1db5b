/-
**The cache of a node is the ideal one.**

The cache keeps its contents in two places: the entries of all keys, valid or invalid, and the order
of recent use of the valid ones.  The list of an ideal cache is made of both, and every operation
does to the cache what it does to that list, with the same answer.  So what the ideal cache does is
what the cache does: a key has the entry of its latest put, unless it was invalidated or evicted
since, and what a put evicts is the valid key that was used before all others.

The bound on the cache is a bound on the order of use alone.  An invalidated entry is no longer in
it, but it stays with the entries until its key is put again, and no eviction will remove it.  A put
of another key at such a time stores one entry more, whatever the capacity.

Every put stores an entry object of its own.  The cache of the code keeps the object that the caller
hands over, and both handlers that call `put` make a new one each time.

Main definitions:

* `LruCache.operate`, `LruCache.operated` — operations on the cache, and their history;
* `LruCache.Refines` — the cache has the contents of a list;
* `LruCache.validKeys` — the keys with a valid entry;
* `LruCache.Crowded` — a put that stores one entry too many.

Main results:

* `LruCache.refines_operate` — **every operation does the same to the cache and to the list**;
* `LruCache.ideal` — what the history says of a cache;
* `LruCache.stored_le_iff` — **when the stored entries stay within the capacity**.
-/

import DistSync.IdealLru
import DistSync.LruCache
import Mathlib.Data.Finset.Card
import Mathlib.Data.Finset.Dedup

set_option relaxedAutoImplicit false
set_option autoImplicit false

namespace LruCache

open Lru

variable {β : Type*}

/-! ### Operations and contents -/

/-- The cache after an operation, and the operation with its answer. -/
def operate (c : LruCache β) : Op String (CacheEntry β) → LruCache β × Event String (CacheEntry β)
  | .get key => ((c.get key).1, .got key ((c.get key).2.map Prod.snd))
  | .put key entry => ((c.put key entry).1, .put key entry (c.put key entry).2)
  | .invalidate key => (c.invalidate key, .invalidated key)

/-- A new cache after a sequence of operations, and their history, the latest one first. -/
def operated (capacity : ℕ) (ops : List (Op String (CacheEntry β))) :
    LruCache β × List (Event String (CacheEntry β)) :=
  ops.foldl (fun s op => ((s.1.operate op).1, (s.1.operate op).2 :: s.2)) (empty capacity, [])

theorem operated_concat (capacity : ℕ) (ops : List (Op String (CacheEntry β)))
    (op : Op String (CacheEntry β)) :
    operated capacity (ops ++ [op]) = (((operated capacity ops).1.operate op).1,
      ((operated capacity ops).1.operate op).2 :: (operated capacity ops).2) := by
  rw [operated, List.foldl_append]
  rfl

/-- A put brings an entry that is not invalid. -/
def PutsValid : Op String (CacheEntry β) → Prop
  | .put _ entry => entry.state ≠ .I
  | _ => True

/-- **The cache has the contents of a list**: the keys are in the order of use, each with its entry,
and all valid entries are there. -/
structure Refines (c : LruCache β) (l : List (String × CacheEntry β)) : Prop where
  lru : c.lru = l.map Prod.fst
  nodup : (l.map Prod.fst).Nodup
  mem : ∀ key entry, (key, entry) ∈ l ↔ c.copy key = some entry ∧ entry.state ≠ .I

variable {c : LruCache β} {l : List (String × CacheEntry β)} {key key' : String}

theorem map_fst_remove (hnodup : (l.map Prod.fst).Nodup) (key : String) :
    (remove l key).map Prod.fst = (l.map Prod.fst).erase key := by
  rw [hnodup.erase_eq_filter, List.filter_map, remove]
  exact congrArg _ (List.filter_congr fun a _ => by simp [bne, beq_eq_decide])

theorem nodup_move (hnodup : (l.map Prod.fst).Nodup) (key : String) (entry : CacheEntry β) :
    ((remove l key ++ [(key, entry)]).map Prod.fst).Nodup := by
  rw [List.map_append, map_fst_remove hnodup, List.map_singleton]
  refine List.nodup_append.2 ⟨hnodup.erase key, List.nodup_singleton key, fun a ha b hb => ?_⟩
  rintro rfl
  rw [List.mem_singleton.1 hb] at ha
  exact hnodup.not_mem_erase ha

theorem lookupEntry_iff (h : Refines c l) {entry : CacheEntry β} :
    Dict.lookupEntry key l = some entry ↔ c.copy key = some entry ∧ entry.state ≠ .I := by
  rw [Dict.lookupEntry_eq_some_iff h.nodup, h.mem]

theorem refines_empty (capacity : ℕ) : Refines (empty capacity : LruCache β) [] :=
  ⟨rfl, List.nodup_nil, fun key entry => by simp [copy, empty]⟩

theorem refines_get (h : Refines c l) (key : String) :
    (c.get key).2.map Prod.snd = (Lru.get l key).2 ∧
      Refines (c.get key).1 (Lru.get l key).1 := by
  cases hget : (c.get key).2 with
  | none =>
      obtain ⟨hcache, hinvalid⟩ := get_eq_none hget
      have hnone : Dict.lookupEntry key l = none := by
        refine Option.eq_none_iff_forall_ne_some.2 fun entry hentry => ?_
        obtain ⟨hcopy, hvalid⟩ := (lookupEntry_iff h).1 hentry
        exact hvalid (hinvalid entry hcopy)
      rw [Lru.get, hnone, hcache]
      exact ⟨rfl, h⟩
  | some p =>
      obtain ⟨o, entry⟩ := p
      obtain ⟨-, -, hcopy, hvalid, hcache⟩ := get_eq_some hget
      have hsome : Dict.lookupEntry key l = some entry := (lookupEntry_iff h).2 ⟨hcopy, hvalid⟩
      rw [Lru.get, hsome, hcache]
      refine ⟨rfl, ?_, nodup_move h.nodup key entry, fun key' entry' => ?_⟩
      · rw [List.map_append, map_fst_remove h.nodup, ← h.lru]
        rfl
      · rw [copy_touch, ← h.mem, List.mem_append, mem_remove, List.mem_singleton, Prod.mk.injEq]
        constructor
        · rintro (⟨hmem, -⟩ | ⟨rfl, rfl⟩)
          · exact hmem
          · exact (h.mem _ _).2 ⟨hcopy, hvalid⟩
        · intro hmem
          by_cases hkey : key' = key
          · subst hkey
            have hcopy' := ((h.mem _ _).1 hmem).1
            exact .inr ⟨rfl, Option.some.inj (hcopy'.symm.trans hcopy)⟩
          · exact .inl ⟨hmem, hkey⟩

theorem refines_invalidate (h : Refines c l) (key : String) :
    Refines (c.invalidate key) (Lru.invalidate l key) := by
  refine ⟨?_, ?_, fun key' entry => ?_⟩
  · rw [Lru.invalidate, map_fst_remove h.nodup, ← h.lru]
    unfold LruCache.invalidate
    split
    · next hnone =>
        -- a key without an entry is not in the order of use
        have hkey : key ∉ c.lru := by
          rw [h.lru, List.mem_map]
          rintro ⟨⟨key', entry⟩, hmem, rfl⟩
          have hcopy := ((h.mem _ _).1 hmem).1
          rw [copy_eq_none hnone] at hcopy
          cases hcopy
        exact (List.erase_of_not_mem hkey).symm
    · rfl
  · rw [Lru.invalidate, map_fst_remove h.nodup]
    exact h.nodup.erase key
  · rw [Lru.invalidate, mem_remove, h.mem]
    by_cases hkey : key' = key
    · subst hkey
      exact ⟨fun hne => absurd rfl hne.2, fun hcopy => absurd (copy_invalidate_self hcopy.1) hcopy.2⟩
    · rw [(copy_invalidate_of_ne hkey).2]
      exact and_iff_left hkey

/-- The key that is put is the most recently used one. -/
theorem refines_insert (h : Refines c l) (key : String) {entry : CacheEntry β}
    (hentry : entry.state ≠ .I) :
    Refines ((c.insert key entry).touch key) (remove l key ++ [(key, entry)]) := by
  refine ⟨?_, nodup_move h.nodup key entry, fun key' entry' => ?_⟩
  · rw [List.map_append, map_fst_remove h.nodup, ← h.lru]
    rfl
  · rw [copy_touch, copy_insert, List.mem_append, mem_remove, List.mem_singleton, Prod.mk.injEq,
      h.mem]
    by_cases hkey : key' = key
    · rw [if_pos hkey, Option.some_inj]
      constructor
      · rintro (⟨-, hne⟩ | ⟨-, rfl⟩)
        · exact absurd hkey hne
        · exact ⟨rfl, hentry⟩
      · rintro ⟨rfl, -⟩
        exact .inr ⟨hkey, rfl⟩
    · rw [if_neg hkey]
      constructor
      · rintro (⟨hcopy, -⟩ | ⟨heq, -⟩)
        · exact hcopy
        · exact absurd heq hkey
      · exact fun hcopy => .inl ⟨hcopy, hkey⟩

theorem copy_drop : (c.drop key).copy key' = if key' = key then none else c.copy key' := by
  simp only [copy, drop, Dict.get?_erase]
  split <;> rfl

/-- The key that is evicted was the first one. -/
theorem refines_drop {a : String × CacheEntry β} (h : Refines c (a :: l)) :
    Refines ((c.forget a.1).drop a.1) l := by
  have hnodup := h.nodup
  rw [List.map_cons, List.nodup_cons] at hnodup
  refine ⟨?_, hnodup.2, fun key entry => ?_⟩
  · show c.lru.erase a.1 = _
    rw [h.lru, List.map_cons, List.erase_cons_head]
  · rw [copy_drop, copy_forget]
    by_cases hkey : key = a.1
    · rw [if_pos hkey]
      constructor
      · intro hmem
        exact absurd (List.mem_map.2 ⟨_, hmem, hkey⟩) hnodup.1
      · rintro ⟨hnone, -⟩
        cases hnone
    · rw [if_neg hkey, ← h.mem, List.mem_cons]
      exact ⟨.inr, fun hmem => hmem.resolve_left fun heq => hkey (congrArg Prod.fst heq)⟩

theorem refines_put (h : Refines c l) (key : String) {entry : CacheEntry β}
    (hentry : entry.state ≠ .I) :
    (c.put key entry).2 = (Lru.put c.capacity l key entry).2 ∧
      Refines (c.put key entry).1 (Lru.put c.capacity l key entry).1 := by
  have hnew := refines_insert h key hentry
  have hlength : ((c.insert key entry).touch key).lru.length =
      (remove l key ++ [(key, entry)]).length := by
    rw [hnew.lru, List.length_map]
  unfold LruCache.put Lru.put
  by_cases hfull : c.capacity < (remove l key ++ [(key, entry)]).length
  · have hfull' : ((c.insert key entry).touch key).capacity <
        ((c.insert key entry).touch key).lru.length := hlength ▸ hfull
    simp only [hfull, hfull', if_true]
    cases hlist : remove l key ++ [(key, entry)] with
    | nil => exact absurd hlist (List.append_ne_nil_of_right_ne_nil _ (List.cons_ne_nil _ _))
    | cons a rest =>
        rw [hlist] at hnew
        have hlru := hnew.lru
        rw [List.map_cons] at hlru
        have hcopy := ((hnew.mem a.1 a.2).1 List.mem_cons_self).1
        simp only [hlru, hcopy, Option.map_some, List.head?_cons, List.tail_cons]
        exact ⟨trivial, refines_drop hnew⟩
  · have hfit : ¬ ((c.insert key entry).touch key).capacity <
        ((c.insert key entry).touch key).lru.length := hlength ▸ hfull
    simp only [hfull, hfit, if_false]
    exact ⟨trivial, hnew⟩

theorem capacity_put (entry : CacheEntry β) : (c.put key entry).1.capacity = c.capacity := by
  unfold LruCache.put
  simp only
  split
  · split <;> rfl
  · rfl

theorem capacity_operate (op : Op String (CacheEntry β)) :
    (c.operate op).1.capacity = c.capacity := by
  cases op with
  | get key =>
      show (c.get key).1.capacity = _
      unfold LruCache.get
      split
      · rfl
      · split
        · rfl
        · split <;> rfl
  | put key entry => exact capacity_put entry
  | invalidate key =>
      show (c.invalidate key).capacity = _
      unfold LruCache.invalidate
      split <;> rfl

/-- **Every operation does the same to the cache and to the list**, with the same answer. -/
theorem refines_operate (h : Refines c l) {op : Op String (CacheEntry β)} (hop : PutsValid op) :
    (c.operate op).2 = (Lru.perform c.capacity l op).2 ∧
      Refines (c.operate op).1 (Lru.perform c.capacity l op).1 := by
  cases op with
  | get key =>
      obtain ⟨hanswer, hnext⟩ := refines_get h key
      exact ⟨congrArg (Event.got key) hanswer, hnext⟩
  | put key entry =>
      obtain ⟨hanswer, hnext⟩ := refines_put h key hop
      exact ⟨congrArg (Event.put key entry) hanswer, hnext⟩
  | invalidate key => exact ⟨rfl, refines_invalidate h key⟩

/-- **After any operations the cache has the contents of a list that the history tells.** -/
theorem exists_refines {capacity : ℕ} {ops : List (Op String (CacheEntry β))}
    (hops : ∀ op ∈ ops, PutsValid op) :
    ∃ l, Refines (operated capacity ops).1 l ∧ Faithful l (operated capacity ops).2 ∧
      l.length ≤ capacity ∧ (operated capacity ops).1.capacity = capacity := by
  induction ops using List.reverseRecOn with
  | nil => exact ⟨[], refines_empty capacity, Faithful.nil, Nat.zero_le _, rfl⟩
  | append_singleton ops op ih =>
      obtain ⟨l, hrefines, hfaithful, hlength, hcapacity⟩ :=
        ih fun op hop => hops op (List.mem_append_left _ hop)
      obtain ⟨hanswer, hnext⟩ := refines_operate hrefines
        (hops op (List.mem_append_right _ (List.mem_singleton_self _)))
      rw [hcapacity] at hanswer hnext
      rw [operated_concat, hanswer, capacity_operate]
      exact ⟨_, hnext, hfaithful.perform capacity op, length_perform_le hfaithful hlength op,
        hcapacity⟩

/-! ### What the history says -/

/-- The keys with a valid entry. -/
def validKeys (c : LruCache β) : Finset String :=
  (c.entries.keys.filter fun key => (c.copy key).any fun entry => entry.state ≠ .I).toFinset

theorem mem_validKeys : key ∈ c.validKeys ↔ ∃ entry, c.copy key = some entry ∧ entry.state ≠ .I := by
  rw [validKeys, List.mem_toFinset, List.mem_filter, Option.any_eq_true]
  simp only [decide_eq_true_eq]
  constructor
  · exact fun h => h.2
  · rintro ⟨entry, hcopy, hvalid⟩
    refine ⟨Dict.mem_keys_iff.2 ?_, entry, hcopy, hvalid⟩
    obtain ⟨o, ho, -⟩ := Option.bind_eq_some_iff.1 hcopy
    exact ⟨o, ho⟩

/-- The valid keys are those of the list. -/
theorem Refines.validKeys (h : Refines c l) : c.validKeys = (l.map Prod.fst).toFinset := by
  ext key
  rw [mem_validKeys, List.mem_toFinset, List.mem_map]
  constructor
  · rintro ⟨entry, hentry⟩
    exact ⟨(key, entry), (h.mem key entry).2 hentry, rfl⟩
  · rintro ⟨a, hmem, rfl⟩
    exact ⟨a.2, (h.mem a.1 a.2).1 hmem⟩

theorem Refines.card_validKeys (h : Refines c l) : c.validKeys.card = l.length := by
  rw [h.validKeys, List.toFinset_card_of_nodup h.nodup, List.length_map]

/-- The valid keys, with the one that is put, are those of the list when it was put there. -/
theorem Refines.validKeys_union (h : Refines c l) (key : String) (entry : CacheEntry β) :
    c.validKeys ∪ {key} = ((remove l key ++ [(key, entry)]).map Prod.fst).toFinset := by
  ext key'
  rw [h.validKeys, List.map_append, map_fst_remove h.nodup]
  simp only [Finset.mem_union, List.mem_toFinset, Finset.mem_singleton, List.mem_append,
    List.map_singleton, List.mem_singleton]
  by_cases hkey : key' = key
  · simp only [hkey, or_true]
  · rw [List.mem_erase_of_ne hkey]

/-- **What the history says of a cache.**  A read returns the entry of the latest put, unless the key
was invalidated or evicted since.  There are never more valid keys than the capacity, and a put
evicts a key exactly when there would be: the one that was used before all others, with the entry
that it has.  Each put is one of a fresh entry object. -/
theorem ideal {capacity : ℕ} (hcapacity : 0 < capacity) {ops : List (Op String (CacheEntry β))}
    (hops : ∀ op ∈ ops, PutsValid op) :
    let c := (operated capacity ops).1
    let history := (operated capacity ops).2
    (∀ key, (c.get key).2.map Prod.snd = latest history key) ∧
      c.validKeys.card ≤ capacity ∧
      ∀ key (entry : CacheEntry β), entry.state ≠ .I →
        ((c.put key entry).2 ≠ none ↔ capacity < (c.validKeys ∪ {key}).card) ∧
          ∀ evicted, (c.put key entry).2 = some evicted →
            evicted.1 ∈ c.validKeys ∧ c.copy evicted.1 = some evicted.2 ∧
              ∀ key' ∈ c.validKeys ∪ {key}, key' ≠ evicted.1 →
                lastUse (.put key entry (some evicted) :: history) evicted.1 <
                  lastUse (.put key entry (some evicted) :: history) key' := by
  intro c history
  obtain ⟨l, hrefines, hfaithful, hlength, hc⟩ := @exists_refines _ capacity _ hops
  refine ⟨fun key => ?_, ?_, fun key entry hentry => ?_⟩
  · rw [(refines_get hrefines key).1, get_snd, hfaithful.lookupEntry_eq]
  · rw [hrefines.card_validKeys]
    exact hlength
  · have hanswer := (refines_put hrefines key hentry).1
    have hc' : c.capacity = capacity := hc
    have hunion := hrefines.validKeys_union key entry
    rw [hanswer, hc']
    refine ⟨?_, fun evicted hevicted => ?_⟩
    · rw [hunion, List.toFinset_card_of_nodup (nodup_move hrefines.nodup key entry),
        List.length_map]
      exact put_ne_none_iff
    · obtain ⟨hmem, -, hfirst⟩ := hfaithful.evicted hcapacity hevicted
      have hcopy := (hrefines.mem evicted.1 evicted.2).1 hmem
      refine ⟨mem_validKeys.2 ⟨evicted.2, hcopy⟩, hcopy.1, fun key' hkey' hne => ?_⟩
      rw [hunion, List.mem_toFinset, List.mem_map] at hkey'
      obtain ⟨b, hb, rfl⟩ := hkey'
      exact hfirst b hb fun heq => hne (congrArg Prod.fst heq)

/-- A second key evicts the first one, when there is room for one. -/
theorem ideal_oneKey :
    ((operated (β := ℕ) 1 [.put "a" ⟨1, .M⟩]).1.put "b" ⟨2, .M⟩).2 ≠ none ↔
      1 < ((operated (β := ℕ) 1 [.put "a" ⟨1, .M⟩]).1.validKeys ∪ {"b"}).card :=
  ((@ideal ℕ 1 (by decide) [.put "a" ⟨1, .M⟩]
    (List.forall_mem_singleton.2 (by simp [PutsValid]))).2.2 "b" ⟨2, .M⟩ (by simp)).1

/-! ### The order of use and the valid keys -/

/-- The order of use holds the valid keys, each once. -/
structure Tracks (c : LruCache β) : Prop where
  nodup : c.lru.Nodup
  mem : ∀ key, key ∈ c.lru ↔ ∃ entry, c.copy key = some entry ∧ entry.state ≠ .I

theorem map_fst_copies {keys : List String}
    (hkeys : ∀ key ∈ keys, ∃ entry, c.copy key = some entry) :
    (keys.filterMap fun key => (c.copy key).map (Prod.mk key)).map Prod.fst = keys := by
  induction keys with
  | nil => rfl
  | cons key keys ih =>
      obtain ⟨⟨entry, hcopy⟩, hkeys⟩ := List.forall_mem_cons.1 hkeys
      rw [List.filterMap_cons_some (b := (key, entry)) (by rw [hcopy]; rfl), List.map_cons, ih hkeys]

/-- This is so when the cache has the contents of some list. -/
theorem tracks_iff : Tracks c ↔ ∃ l, Refines c l := by
  constructor
  · intro h
    refine ⟨c.lru.filterMap fun key => (c.copy key).map (Prod.mk key), ?_⟩
    have hmap : (c.lru.filterMap fun key => (c.copy key).map (Prod.mk key)).map Prod.fst = c.lru :=
      map_fst_copies fun key hkey => by
        obtain ⟨entry, hcopy, -⟩ := (h.mem key).1 hkey
        exact ⟨entry, hcopy⟩
    refine ⟨hmap.symm, by rw [hmap]; exact h.nodup, fun key entry => ?_⟩
    rw [List.mem_filterMap]
    constructor
    · rintro ⟨key', hkey', heq⟩
      obtain ⟨entry', hcopy, heq⟩ := Option.map_eq_some_iff.1 heq
      cases heq
      obtain ⟨entry'', hcopy', hvalid⟩ := (h.mem key).1 hkey'
      rw [hcopy] at hcopy'
      cases hcopy'
      exact ⟨hcopy, hvalid⟩
    · rintro ⟨hcopy, hvalid⟩
      exact ⟨key, (h.mem key).2 ⟨entry, hcopy, hvalid⟩, by rw [hcopy]; rfl⟩
  · rintro ⟨l, h⟩
    refine ⟨by rw [h.lru]; exact h.nodup, fun key => ?_⟩
    rw [← mem_validKeys, h.validKeys, List.mem_toFinset, h.lru]

/-- A state that is changed from valid to valid changes nothing here. -/
theorem Tracks.setState_S (h : Tracks c) {o : ℕ} {entry : CacheEntry β}
    (hobject : c.objects[o]? = some entry) (hvalid : entry.state ≠ .I) :
    Tracks (c.setState o .S) := by
  refine ⟨h.nodup, fun key => (h.mem key).trans ?_⟩
  rw [copy_setState]
  split
  · next hkey =>
      have hcopy : c.copy key = some entry := by rw [copy_of_entry hkey, hobject]
      rw [hcopy]
      exact iff_of_true ⟨entry, rfl, hvalid⟩ ⟨_, rfl, by simp⟩
  · rfl

/-! ### The number of stored entries -/

/-- The order of use holds every valid key once, and only keys with an entry. -/
structure Listed (c : LruCache β) : Prop where
  nodup : c.lru.Nodup
  valid : ∀ key entry, c.copy key = some entry → entry.state ≠ .I → key ∈ c.lru
  stored : ∀ key ∈ c.lru, key ∈ c.entries.keys

theorem listed_empty (capacity : ℕ) : Listed (empty capacity : LruCache β) where
  nodup := List.nodup_nil
  valid key entry h := by cases h
  stored key h := by cases h

theorem nodup_touch (hnodup : c.lru.Nodup) : (c.touch key).lru.Nodup := by
  refine List.nodup_append.2 ⟨hnodup.erase key, List.nodup_singleton key, ?_⟩
  rintro a ha b hb rfl
  rw [List.mem_singleton.1 hb] at ha
  exact hnodup.not_mem_erase ha

theorem mem_touch (hnodup : c.lru.Nodup) : key' ∈ (c.touch key).lru ↔ key' ∈ c.lru ∨ key' = key := by
  show key' ∈ c.lru.erase key ++ [key] ↔ _
  rw [List.mem_append, List.mem_singleton, hnodup.mem_erase_iff]
  tauto

theorem length_touch (c : LruCache β) (key : String) :
    (c.touch key).lru.length = if key ∈ c.lru then c.lru.length else c.lru.length + 1 := by
  show (c.lru.erase key ++ [key]).length = _
  rw [List.length_append, List.length_singleton]
  split
  · next hmem =>
      have hpos := List.length_pos_of_mem hmem
      rw [List.length_erase_of_mem hmem]
      omega
  · next hmem => rw [List.erase_of_not_mem hmem]

theorem mem_keys_insert {entry : CacheEntry β} :
    key' ∈ (c.insert key entry).entries.keys ↔ key' ∈ c.entries.keys ∨ key' = key := by
  show key' ∈ (c.entries.set key c.objects.length).keys ↔ _
  rw [Dict.mem_keys_iff, Dict.mem_keys_iff]
  simp only [Dict.get?_set]
  by_cases hkey : key' = key <;> simp [hkey]

namespace Listed

theorem touch (h : Listed c) (hkey : key ∈ c.lru) : Listed (c.touch key) where
  nodup := nodup_touch h.nodup
  valid key' entry hcopy hvalid := (mem_touch h.nodup).2 (.inl (h.valid key' entry hcopy hvalid))
  stored key' hkey' := by
    rcases (mem_touch h.nodup).1 hkey' with hmem | rfl
    · exact h.stored key' hmem
    · exact h.stored key' hkey

theorem insert (h : Listed c) (key : String) (entry : CacheEntry β) :
    Listed ((c.insert key entry).touch key) where
  nodup := nodup_touch h.nodup
  valid key' entry' hcopy hvalid := by
    refine (mem_touch (c := c.insert key entry) h.nodup).2 ?_
    rw [copy_touch, copy_insert] at hcopy
    split at hcopy
    · next hkey => exact .inr hkey
    · exact .inl (h.valid key' entry' hcopy hvalid)
  stored key' hkey' := by
    refine (@mem_keys_insert _ c key key' entry).2 ?_
    exact ((mem_touch (c := c.insert key entry) h.nodup).1 hkey').imp (h.stored key') id

theorem drop (h : Listed c) (key : String) : Listed ((c.forget key).drop key) where
  nodup := h.nodup.erase key
  valid key' entry hcopy hvalid := by
    rw [copy_drop, copy_forget] at hcopy
    split at hcopy
    · cases hcopy
    · next hkey => exact (List.mem_erase_of_ne hkey).2 (h.valid key' entry hcopy hvalid)
  stored key' hkey' := by
    obtain ⟨hkey, hmem⟩ := h.nodup.mem_erase_iff.1 hkey'
    obtain ⟨o, ho⟩ := Dict.mem_keys_iff.1 (h.stored key' hmem)
    exact Dict.mem_keys_iff.2 ⟨o, (Dict.get?_erase_of_ne hkey).trans ho⟩

theorem invalidate (h : Listed c) (key : String) : Listed (c.invalidate key) := by
  cases hentry : c.entries.get? key with
  | none =>
      rw [LruCache.invalidate, hentry]
      exact h
  | some o =>
      have hcache : c.invalidate key = (c.setState o .I).forget key := by
        rw [LruCache.invalidate, hentry]
      refine ⟨hcache ▸ h.nodup.erase key, fun key' entry hcopy hvalid => ?_, fun key' hkey' => ?_⟩
      · have hkey : key' ≠ key := by
          rintro rfl
          exact hvalid (copy_invalidate_self hcopy)
        rw [(copy_invalidate_of_ne hkey).2] at hcopy
        rw [hcache]
        exact (List.mem_erase_of_ne hkey).2 (h.valid key' entry hcopy hvalid)
      · rw [hcache] at hkey' ⊢
        exact h.stored key' (List.mem_of_mem_erase hkey')

end Listed

/-- **A put that stores one entry too many**: of a key without an entry, when as many entries as the
capacity are stored and one of them is no longer in the order of use. -/
def Crowded (c : LruCache β) : Op String (CacheEntry β) → Prop
  | .put key _ => key ∉ c.entries.keys ∧ c.capacity ≤ c.entries.size ∧ c.lru.length < c.capacity
  | _ => False

/-- The cache after a put, with or without an eviction. -/
theorem put_cases (c : LruCache β) (key : String) (entry : CacheEntry β) :
    let c' := (c.insert key entry).touch key
    (c'.lru.length ≤ c.capacity ∧ (c.put key entry).1 = c') ∨
      ∃ evictedKey rest, c.capacity < c'.lru.length ∧ c'.lru = evictedKey :: rest ∧
        (c.put key entry).1 = (c'.forget evictedKey).drop evictedKey := by
  intro c'
  unfold LruCache.put
  by_cases hfull : c'.capacity < c'.lru.length
  · cases hlru : c'.lru with
    | nil =>
        rw [hlru] at hfull
        exact absurd hfull (Nat.not_lt_zero _)
    | cons evictedKey rest =>
        refine .inr ⟨evictedKey, rest, hlru ▸ hfull, rfl, ?_⟩
        rw [if_pos hfull]
        simp only [show ((c.insert key entry).touch key).lru = _ from hlru]
        rfl
  · refine .inl ⟨Nat.le_of_not_lt hfull, ?_⟩
    rw [if_neg hfull]

/-- **What a put does to the two numbers.** -/
theorem size_put (h : Listed c) (hlength : c.lru.length ≤ c.capacity) (key : String)
    (entry : CacheEntry β) :
    (c.put key entry).1.lru.length ≤ c.capacity ∧
      (c.entries.size ≤ c.capacity →
        ((c.put key entry).1.entries.size ≤ c.capacity ↔ ¬ Crowded c (.put key entry))) := by
  have hsize : ((c.insert key entry).touch key).entries.size =
      if key ∈ c.entries.keys then c.entries.size else c.entries.size + 1 := Dict.size_set
  have htouch : ((c.insert key entry).touch key).lru.length =
      if key ∈ c.lru then c.lru.length else c.lru.length + 1 := length_touch (c.insert key entry) key
  have hstored := h.stored key
  rcases put_cases c key entry with ⟨hfit, hput⟩ | ⟨evictedKey, rest, hfull, hrest, hput⟩
  · rw [hput]
    refine ⟨hfit, fun hbound => ?_⟩
    rw [hsize, Crowded]
    by_cases hkey : key ∈ c.entries.keys
    · simp only [hkey, if_true, not_true_eq_false, false_and, not_false_eq_true, hbound]
    · rw [htouch, if_neg fun hmem => hkey (hstored hmem)] at hfit
      rw [if_neg hkey]
      constructor
      · intro hroom hcrowded
        have hle := hcrowded.2.1
        omega
      · intro hcrowded
        by_contra hroom
        exact hcrowded ⟨hkey, by omega, by omega⟩
  · have hlru : (c.put key entry).1.lru = rest := by
      rw [hput]
      show ((c.insert key entry).touch key).lru.erase evictedKey = rest
      rw [hrest, List.erase_cons_head]
    have hevicted : (c.put key entry).1.entries.size + 1 =
        ((c.insert key entry).touch key).entries.size := by
      rw [hput]
      exact Dict.size_erase ((h.insert key entry).stored evictedKey (hrest ▸ List.mem_cons_self))
    have hrestLength : rest.length + 1 = ((c.insert key entry).touch key).lru.length := by
      rw [hrest, List.length_cons]
    rw [htouch] at hrestLength hfull
    refine ⟨?_, fun hbound => iff_of_true ?_ fun hcrowded => ?_⟩
    · rw [hlru]
      split at hrestLength <;> omega
    · split at hsize <;> omega
    · rw [if_neg fun hmem => hcrowded.1 (hstored hmem)] at hfull
      have hlt := hcrowded.2.2
      omega

theorem Listed.put (h : Listed c) (key : String) (entry : CacheEntry β) :
    Listed (c.put key entry).1 := by
  rcases put_cases c key entry with ⟨-, hput⟩ | ⟨evictedKey, rest, -, -, hput⟩
  · rw [hput]
    exact h.insert key entry
  · rw [hput]
    exact (h.insert key entry).drop evictedKey

/-- What a read leaves: the key that is read is in the order of use already. -/
theorem Listed.get (h : Listed c) (key : String) :
    Listed (c.get key).1 ∧ (c.get key).1.lru.length = c.lru.length ∧
      (c.get key).1.entries = c.entries := by
  cases hget : (c.get key).2 with
  | none =>
      rw [(get_eq_none hget).1]
      exact ⟨h, rfl, rfl⟩
  | some p =>
      obtain ⟨o, entry⟩ := p
      obtain ⟨-, -, hcopy, hvalid, hcache⟩ := get_eq_some hget
      have hkey := h.valid key entry hcopy hvalid
      rw [hcache]
      exact ⟨h.touch hkey, (length_touch c key).trans (if_pos hkey), rfl⟩

theorem size_invalidate (c : LruCache β) (key : String) :
    (c.invalidate key).lru.length ≤ c.lru.length ∧ (c.invalidate key).entries = c.entries := by
  unfold LruCache.invalidate
  split
  · exact ⟨Nat.le_refl _, rfl⟩
  · exact ⟨List.length_erase_le, rfl⟩

/-- **One operation**: the order of use stays within the capacity, and so do the entries, unless the
operation is a put that stores one too many. -/
theorem listed_operate (h : Listed c) (hlength : c.lru.length ≤ c.capacity)
    (op : Op String (CacheEntry β)) :
    Listed (c.operate op).1 ∧ (c.operate op).1.lru.length ≤ c.capacity ∧
      (c.entries.size ≤ c.capacity →
        ((c.operate op).1.entries.size ≤ c.capacity ↔ ¬ Crowded c op)) := by
  cases op with
  | get key =>
      obtain ⟨hlisted, hsame, hentries⟩ := h.get key
      exact ⟨hlisted, hsame.trans_le hlength, fun hbound =>
        iff_of_true (show (c.get key).1.entries.size ≤ _ by rwa [hentries]) id⟩
  | put key entry => exact ⟨h.put key entry, size_put h hlength key entry⟩
  | invalidate key =>
      obtain ⟨hless, hentries⟩ := size_invalidate c key
      exact ⟨h.invalidate key, hless.trans hlength, fun hbound =>
        iff_of_true (show (c.invalidate key).entries.size ≤ _ by rwa [hentries]) id⟩

/-- The order of use after any operations. -/
theorem listed_operated (capacity : ℕ) (ops : List (Op String (CacheEntry β))) :
    Listed (operated capacity ops).1 ∧ (operated capacity ops).1.lru.length ≤ capacity ∧
      (operated capacity ops).1.capacity = capacity := by
  induction ops using List.reverseRecOn with
  | nil => exact ⟨listed_empty capacity, Nat.zero_le _, rfl⟩
  | append_singleton ops op ih =>
      obtain ⟨hlisted, hlength, hcapacity⟩ := ih
      obtain ⟨hlisted', hlength', -⟩ := listed_operate hlisted (hcapacity.symm ▸ hlength) op
      rw [operated_concat, capacity_operate]
      exact ⟨hlisted', hlength'.trans_eq hcapacity, hcapacity⟩

/-- **When the stored entries stay within the capacity**: as long as no put stores one too many. -/
theorem stored_le_iff (capacity : ℕ) (ops : List (Op String (CacheEntry β))) :
    (∀ n, (operated capacity (ops.take n)).1.entries.size ≤ capacity) ↔
      ∀ n op, ops[n]? = some op → ¬ Crowded (operated capacity (ops.take n)).1 op := by
  have hstep : ∀ n op, ops[n]? = some op →
      (operated capacity (ops.take n)).1.entries.size ≤ capacity →
        ((operated capacity (ops.take (n + 1))).1.entries.size ≤ capacity ↔
          ¬ Crowded (operated capacity (ops.take n)).1 op) := by
    intro n op hop hbound
    obtain ⟨hlisted, hlength, hcapacity⟩ := listed_operated capacity (ops.take n)
    have hnext := (listed_operate hlisted (hcapacity.symm ▸ hlength) op).2.2
    rw [hcapacity] at hnext
    rw [List.take_add_one, hop, Option.toList_some, operated_concat]
    exact hnext hbound
  constructor
  · intro hbound n op hop
    exact (hstep n op hop (hbound n)).1 (hbound (n + 1))
  · intro hcalm n
    induction n with
    | zero => exact Nat.zero_le _
    | succ n ih =>
        cases hop : ops[n]? with
        | none =>
            rw [List.take_add_one, hop, Option.toList_none, List.append_nil]
            exact ih
        | some op => exact (hstep n op hop ih).2 (hcalm n op hop)

/-- A key that was invalidated, and then another one. -/
def invalidatedThenPut : List (Op String (CacheEntry ℕ)) :=
  [.put "a" ⟨1, .M⟩, .invalidate "a", .put "b" ⟨2, .M⟩]

theorem not_stored_le : ¬ ∀ capacity, 1 ≤ capacity → ∀ ops : List (Op String (CacheEntry ℕ)),
    (operated capacity ops).1.entries.size ≤ capacity := by
  intro h
  exact absurd (h 1 (Nat.le_refl _) invalidatedThenPut) (by decide +kernel)

end LruCache
