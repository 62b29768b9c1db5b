/-
**The cache of a node.**

`LruCache` in `nodes/cache_node.py` maps keys to entry objects and keeps a record of recent use.
Entries are mutable objects: `get` hands out a reference, and whoever holds one may change the state
of the entry later, when the key may belong to another object already.  So objects have an identity
here: they are numbered in the order in which they were made, and the cache maps keys to numbers.

The four primitive changes of a cache keep two facts that the structure carries: a key refers to an
object that was made, and no object belongs to two keys.

Main definitions:

* `Mesi`, `CacheEntry` — entries;
* `LruCache` — the cache, with its objects;
* `LruCache.get`, `LruCache.put`, `LruCache.invalidate` — **the operations**;
* `LruCache.copy` — the entry that a key has now.

Main results:

* `LruCache.copy_setState`, `LruCache.copy_insert` — what the primitive changes do to the copies;
* `LruCache.entries_put`, `LruCache.copy_of_evicted` — **what a put leaves of the other keys**, and
  what it evicts;
* `LruCache.weakens_put`, `LruCache.weakens_invalidate`, `LruCache.weakens_setState_S` — what the
  operations do to a key, as `LruCache.Weakens` says it;
* `LruCache.shares_setState_S` — what a read by another node does, as `LruCache.Shares` says it.
-/

import DistSync.Dict

set_option relaxedAutoImplicit false
set_option autoImplicit false

variable {β : Type*}

/-- The state of an entry. -/
inductive Mesi
  | M
  | E
  | S
  | I
deriving DecidableEq, Repr

/-- An entry of the cache. -/
structure CacheEntry (β : Type*) where
  value : β
  state : Mesi
deriving DecidableEq

/-- The cache.  `objects` are all entries made so far; `entries` gives the object of a key, and
`lru` lists the keys from the least to the most recently used one. -/
structure LruCache (β : Type*) where
  capacity : ℕ
  objects : List (CacheEntry β)
  entries : Dict String ℕ
  lru : List String
  made : ∀ key o, entries.get? key = some o → o < objects.length
  owner : ∀ key key' o, entries.get? key = some o → entries.get? key' = some o → key = key'

namespace LruCache

/-- A new cache. -/
def empty (capacity : ℕ) : LruCache β where
  capacity := capacity
  objects := []
  entries := ∅
  lru := []
  made _ _ h := by cases h
  owner _ _ _ h := by cases h

/-! ### Primitive changes -/

section Primitive

variable (c : LruCache β) (key : String)

/-- Moving a key to the end of the record of use, and adding it if it is not there. -/
def touch : LruCache β := { c with lru := c.lru.erase key ++ [key] }

/-- Removing a key from the record of use. -/
def forget : LruCache β := { c with lru := c.lru.erase key }

/-- Changing the state of an object. -/
def setState (o : ℕ) (state : Mesi) : LruCache β :=
  { c with
    objects := c.objects.modify o fun entry => { entry with state := state }
    made := fun key o' h => by
      rw [List.length_modify]
      exact c.made key o' h }

theorem made_insert (entry : CacheEntry β) (key' : String) (o : ℕ)
    (h : (c.entries.set key c.objects.length).get? key' = some o) :
    o < (c.objects ++ [entry]).length := by
  rw [Dict.get?_set] at h
  rw [List.length_append, List.length_singleton]
  split at h
  · cases h
    omega
  · have hlt := c.made key' o h
    omega

theorem owner_insert (key₁ key₂ : String) (o : ℕ)
    (h₁ : (c.entries.set key c.objects.length).get? key₁ = some o)
    (h₂ : (c.entries.set key c.objects.length).get? key₂ = some o) : key₁ = key₂ := by
  rw [Dict.get?_set] at h₁ h₂
  split at h₁ <;> split at h₂
  · next heq₁ heq₂ => rw [heq₁, heq₂]
  · cases h₁
    exact absurd (c.made key₂ _ h₂) (Nat.lt_irrefl _)
  · cases h₂
    exact absurd (c.made key₁ _ h₁) (Nat.lt_irrefl _)
  · exact c.owner key₁ key₂ o h₁ h₂

/-- Making a new object for a key, the one that the caller of `put` has made. -/
def insert (entry : CacheEntry β) : LruCache β :=
  { c with
    objects := c.objects ++ [entry]
    entries := c.entries.set key c.objects.length
    made := c.made_insert key entry
    owner := c.owner_insert key }

/-- Removing the entry of a key. -/
def drop : LruCache β :=
  { c with
    entries := c.entries.erase key
    made := fun key' o h => by
      rw [Dict.get?_erase] at h
      split at h
      · cases h
      · exact c.made key' o h
    owner := fun key₁ key₂ o h₁ h₂ => by
      rw [Dict.get?_erase] at h₁ h₂
      split at h₁ <;> split at h₂
      · cases h₁
      · cases h₁
      · cases h₂
      · exact c.owner key₁ key₂ o h₁ h₂ }

end Primitive

/-! ### Operations -/

/-- The entry that a key has now. -/
def copy (c : LruCache β) (key : String) : Option (CacheEntry β) :=
  (c.entries.get? key).bind (c.objects[·]?)

/-- `get`: the object of a key and its entry, unless there is none or it is invalid. -/
def get (c : LruCache β) (key : String) : LruCache β × Option (ℕ × CacheEntry β) :=
  match c.entries.get? key with
  | none => (c, none)
  | some o =>
      match c.objects[o]? with
      | none => (c, none)
      | some entry => if entry.state = .I then (c, none) else (c.touch key, some (o, entry))

/-- `put`: the cache with a new entry, and the entry that was evicted for it.  The code stores the
object that its caller hands over; both callers make one for each put. -/
def put (c : LruCache β) (key : String) (entry : CacheEntry β) :
    LruCache β × Option (String × CacheEntry β) :=
  let c := (c.insert key entry).touch key
  if c.capacity < c.lru.length then
    match c.lru with
    | [] => (c, none)
    | evictedKey :: _ =>
        ((c.forget evictedKey).drop evictedKey,
          (c.copy evictedKey).map fun evicted => (evictedKey, evicted))
  else (c, none)

/-- `invalidate`. -/
def invalidate (c : LruCache β) (key : String) : LruCache β :=
  match c.entries.get? key with
  | none => c
  | some o => (c.setState o .I).forget key

/-! ### Copies -/

variable {c : LruCache β} {key key' : String}

theorem copy_of_entry {o : ℕ} (h : c.entries.get? key = some o) : c.copy key = c.objects[o]? := by
  rw [copy, h, Option.bind_some]

theorem copy_eq_none (h : c.entries.get? key = none) : c.copy key = none := by
  rw [copy, h, Option.bind_none]

@[simp] theorem copy_touch : (c.touch key).copy key' = c.copy key' := rfl

@[simp] theorem copy_forget : (c.forget key).copy key' = c.copy key' := rfl

theorem copy_setState (o : ℕ) (state : Mesi) :
    (c.setState o state).copy key = if c.entries.get? key = some o then
      (c.copy key).map fun entry => { entry with state := state } else c.copy key := by
  cases h : c.entries.get? key with
  | none =>
      rw [copy_eq_none h, copy_eq_none (show (c.setState o state).entries.get? key = none from h)]
      simp
  | some o' =>
      rw [copy_of_entry h,
        copy_of_entry (show (c.setState o state).entries.get? key = some o' from h)]
      by_cases ho : o' = o
      · subst ho
        simp [setState]
      · simp [setState, ho, Ne.symm ho]

theorem copy_insert (entry : CacheEntry β) :
    (c.insert key entry).copy key' = if key' = key then some entry else c.copy key' := by
  simp only [copy, insert, Dict.get?_set]
  split
  · rw [Option.bind_some, List.getElem?_append_right (Nat.le_refl _), Nat.sub_self,
      List.getElem?_cons_zero]
  · cases ho : c.entries.get? key' with
    | none => rfl
    | some o =>
        rw [Option.bind_some, Option.bind_some, List.getElem?_append_left (c.made key' o ho)]

/-- What a put evicts was in the cache, or it is the new entry itself. -/
theorem copy_of_evicted {entry evicted : CacheEntry β} {evictedKey : String}
    (h : (c.put key entry).2 = some (evictedKey, evicted)) :
    (evictedKey = key ∧ evicted = entry) ∨
      (evictedKey ≠ key ∧ c.copy evictedKey = some evicted) := by
  unfold put at h
  simp only at h
  split at h
  · split at h
    · cases h
    · next evictedKey' lru hlru =>
        rw [Option.map_eq_some_iff] at h
        obtain ⟨evicted', hcopy, heq⟩ := h
        cases heq
        rw [copy_touch, copy_insert] at hcopy
        split at hcopy
        · next hkey => exact .inl ⟨hkey, (Option.some.inj hcopy).symm⟩
        · next hkey => exact .inr ⟨hkey, hcopy⟩
  · cases h

@[simp] theorem objects_put (entry : CacheEntry β) :
    (c.put key entry).1.objects = c.objects ++ [entry] := by
  unfold put
  simp only
  split
  · split <;> rfl
  · rfl

/-- **What a put leaves**: the new entry, and of the others all but the evicted one. -/
theorem entries_put (entry : CacheEntry β) :
    (c.put key entry).1.entries.get? key' = none ∨
      (c.put key entry).1.entries.get? key' =
        if key' = key then some c.objects.length else c.entries.get? key' := by
  unfold put
  simp only
  split
  · split
    · right
      exact Dict.get?_set
    · next evictedKey lru hlru =>
        simp only [drop, forget, touch, insert, Dict.get?_erase, Dict.get?_set]
        by_cases h : key' = evictedKey
        · rw [if_pos h]
          exact .inl rfl
        · rw [if_neg h]
          exact .inr rfl
  · right
    exact Dict.get?_set

theorem copy_put_self (entry : CacheEntry β) {e : CacheEntry β}
    (h : (c.put key entry).1.copy key = some e) : e = entry := by
  unfold copy at h
  rcases entries_put entry with hput | hput
  · rw [hput] at h
    cases h
  · rw [hput, if_pos rfl, Option.bind_some, objects_put, List.getElem?_append_right (Nat.le_refl _),
      Nat.sub_self] at h
    exact (Option.some.inj h).symm

theorem copy_put_of_ne (h : key' ≠ key) (entry : CacheEntry β) :
    (c.put key entry).1.copy key' = none ∨
      (c.put key entry).1.entries.get? key' = c.entries.get? key' ∧
      (c.put key entry).1.copy key' = c.copy key' := by
  unfold copy
  rcases entries_put entry with hput | hput
  · rw [hput]
    exact .inl rfl
  · rw [if_neg h] at hput
    rw [hput, objects_put]
    refine .inr ⟨rfl, ?_⟩
    cases ho : c.entries.get? key' with
    | none => rfl
    | some o =>
        rw [Option.bind_some, Option.bind_some, List.getElem?_append_left (c.made key' o ho)]

/-! ### How operations change what is there -/

/-- Nothing new is valid under a key: a valid entry was there before with this value, and its state
has not changed, or is shared now. -/
def Weakens (key : String) (c c' : LruCache β) : Prop :=
  ∀ e', c'.copy key = some e' → e'.state ≠ .I → c'.entries.get? key = c.entries.get? key ∧
    ∃ e, c.copy key = some e ∧ e.state ≠ .I ∧ e.value = e'.value ∧
      (e'.state = e.state ∨ e'.state = .S)

/-- The entry of a key, when it was valid, is valid or gone. -/
def Spares (key : String) (c c' : LruCache β) : Prop :=
  ∀ e e', c.copy key = some e → e.state ≠ .I → c'.copy key = some e' → e'.state ≠ .I

/-- Objects keep their values, and no key is moved to an object that was made before. -/
structure Keeps (c c' : LruCache β) : Prop where
  value : ∀ (o : ℕ) (e : CacheEntry β), c.objects[o]? = some e →
    ∃ e', c'.objects[o]? = some e' ∧ e'.value = e.value
  entries : ∀ key o, o < c.objects.length → c'.entries.get? key = some o →
    c.entries.get? key = some o

/-- Reads by other nodes: entries stay where they are, and valid objects stay valid. -/
structure Shares (c c' : LruCache β) : Prop where
  weakens : ∀ key, Weakens key c c'
  entries : c'.entries = c.entries
  objects : ∀ (o : ℕ) (e : CacheEntry β), c.objects[o]? = some e → e.state ≠ .I →
    ∃ e', c'.objects[o]? = some e' ∧ e'.value = e.value ∧ e'.state ≠ .I

variable {c c' : LruCache β} {key key' : String}

theorem Weakens.of_copy (h : c'.copy key = none ∨
    c'.entries.get? key = c.entries.get? key ∧ c'.copy key = c.copy key) : Weakens key c c' := by
  intro e' he' hvalid
  rcases h with h | ⟨hentry, h⟩
  · rw [h] at he'
    cases he'
  · rw [h] at he'
    exact ⟨hentry, e', he', hvalid, rfl, .inl rfl⟩

theorem Spares.of_copy (h : c'.copy key = none ∨
    c'.entries.get? key = c.entries.get? key ∧ c'.copy key = c.copy key) : Spares key c c' := by
  intro e e' he hvalid he'
  rcases h with h | ⟨-, h⟩
  · rw [h] at he'
    cases he'
  · rw [h, he] at he'
    cases he'
    exact hvalid

theorem Weakens.refl (key : String) (c : LruCache β) : Weakens key c c := .of_copy (.inr ⟨rfl, rfl⟩)

theorem Spares.refl (key : String) (c : LruCache β) : Spares key c c := .of_copy (.inr ⟨rfl, rfl⟩)

theorem Keeps.refl (c : LruCache β) : Keeps c c :=
  ⟨fun _ e he => ⟨e, he, rfl⟩, fun _ _ _ h => h⟩

theorem Keeps.of_eq (hobjects : c'.objects = c.objects) (hentries : c'.entries = c.entries) :
    Keeps c c' :=
  ⟨fun o e he => ⟨e, by rw [hobjects, he], rfl⟩, fun _ _ _ h => by rwa [hentries] at h⟩

theorem keeps_setState (c : LruCache β) (o : ℕ) (state : Mesi) : Keeps c (c.setState o state) := by
  refine ⟨fun o' e he => ?_, fun _ _ _ h => h⟩
  simp only [setState, List.getElem?_modify, he]
  split <;> exact ⟨_, rfl, rfl⟩

theorem keeps_invalidate (c : LruCache β) (key : String) : Keeps c (c.invalidate key) := by
  unfold invalidate
  split
  · exact .refl c
  · next o _ => exact ⟨(keeps_setState c o .I).value, (keeps_setState c o .I).entries⟩

/-- Changing the state of an object touches no key but its own. -/
theorem copy_setState_of_ne {o : ℕ} {state : Mesi} (h : c.entries.get? key ≠ some o) :
    (c.setState o state).copy key = c.copy key := by
  rw [copy_setState, if_neg h]

theorem copy_invalidate_of_ne (h : key ≠ key') :
    (c.invalidate key').entries.get? key = c.entries.get? key ∧
      (c.invalidate key').copy key = c.copy key := by
  unfold invalidate
  split
  · exact ⟨rfl, rfl⟩
  · next o ho => exact ⟨rfl, copy_setState_of_ne fun hkey => h (c.owner key key' o hkey ho)⟩

theorem copy_invalidate_self {e : CacheEntry β} (h : (c.invalidate key).copy key = some e) :
    e.state = .I := by
  unfold invalidate at h
  split at h
  · next hnone =>
      rw [copy_eq_none hnone] at h
      cases h
  · next o ho =>
      rw [copy_forget, copy_setState, if_pos ho, Option.map_eq_some_iff] at h
      obtain ⟨e', -, rfl⟩ := h
      rfl

theorem weakens_invalidate (c : LruCache β) (key key' : String) :
    Weakens key c (c.invalidate key') := by
  by_cases h : key = key'
  · subst h
    exact fun e' he' hvalid => absurd (copy_invalidate_self he') hvalid
  · exact .of_copy (.inr (copy_invalidate_of_ne h))

theorem spares_invalidate (h : key ≠ key') : Spares key c (c.invalidate key') :=
  .of_copy (.inr (copy_invalidate_of_ne h))

/-- A valid entry may become shared. -/
theorem weakens_setState_S {o : ℕ}
    (h : c.entries.get? key = some o → ∃ e, c.copy key = some e ∧ e.state ≠ .I) :
    Weakens key c (c.setState o .S) := by
  by_cases ho : c.entries.get? key = some o
  · obtain ⟨e, he, hvalid⟩ := h ho
    intro e' he' _
    rw [copy_setState, if_pos ho, he] at he'
    cases he'
    exact ⟨rfl, e, he, hvalid, rfl, .inr rfl⟩
  · exact .of_copy (.inr ⟨rfl, copy_setState_of_ne ho⟩)

theorem spares_setState_S (c : LruCache β) (key : String) (o : ℕ) :
    Spares key c (c.setState o .S) := by
  by_cases ho : c.entries.get? key = some o
  · intro e e' _ _ he'
    rw [copy_setState, if_pos ho, Option.map_eq_some_iff] at he'
    obtain ⟨e'', -, rfl⟩ := he'
    simp
  · exact .of_copy (.inr ⟨rfl, copy_setState_of_ne ho⟩)

theorem keeps_put (c : LruCache β) (key : String) (entry : CacheEntry β) :
    Keeps c (c.put key entry).1 := by
  refine ⟨fun o e he => ⟨e, ?_, rfl⟩, fun key' o hlt h => ?_⟩
  · rw [objects_put, List.getElem?_append_left (List.getElem?_eq_some_iff.1 he).1, he]
  · rcases entries_put entry with hput | hput
    · rw [hput] at h
      cases h
    · rw [hput] at h
      split at h
      · cases h
        exact absurd hlt (Nat.lt_irrefl _)
      · exact h

/-- A put weakens the other keys. -/
theorem weakens_put (h : key ≠ key') (entry : CacheEntry β) : Weakens key c (c.put key' entry).1 :=
  .of_copy (copy_put_of_ne h entry)

theorem spares_put (h : key ≠ key') (entry : CacheEntry β) : Spares key c (c.put key' entry).1 :=
  .of_copy (copy_put_of_ne h entry)

theorem weakens_touch : Weakens key c (c.touch key') := .of_copy (.inr ⟨rfl, rfl⟩)

theorem spares_touch : Spares key c (c.touch key') := .of_copy (.inr ⟨rfl, rfl⟩)

theorem keeps_touch : Keeps c (c.touch key') := .of_eq rfl rfl

theorem Shares.refl (c : LruCache β) : Shares c c :=
  ⟨fun key => .refl key c, rfl, fun _ e he hvalid => ⟨e, he, rfl, hvalid⟩⟩

theorem shares_touch : Shares c (c.touch key) :=
  ⟨fun _ => weakens_touch, rfl, fun _ e he hvalid => ⟨e, he, rfl, hvalid⟩⟩

/-- A valid object becomes shared. -/
theorem shares_setState_S {o : ℕ} {e : CacheEntry β} (he : c.objects[o]? = some e)
    (hvalid : e.state ≠ .I) : Shares c (c.setState o .S) := by
  refine ⟨fun key => weakens_setState_S fun hkey => ⟨e, by rw [copy_of_entry hkey, he], hvalid⟩,
    rfl, fun o' e' he' hvalid' => ?_⟩
  simp only [setState, List.getElem?_modify, he']
  split
  · exact ⟨_, rfl, rfl, by simp⟩
  · exact ⟨e', rfl, rfl, hvalid'⟩

/-- A key that is valid stays valid when its entry is shared. -/
theorem Shares.valid (h : Shares c c') {e : CacheEntry β} (he : c.copy key = some e)
    (hvalid : e.state ≠ .I) : ∃ e', c'.copy key = some e' ∧ e'.state ≠ .I := by
  rw [copy, Option.bind_eq_some_iff] at he
  obtain ⟨o, hentry, hobject⟩ := he
  obtain ⟨e', he', -, hvalid'⟩ := h.objects o e hobject hvalid
  exact ⟨e', by rw [copy_of_entry (h.entries ▸ hentry), he'], hvalid'⟩

theorem get_eq_some {o : ℕ} {entry : CacheEntry β} (h : (c.get key).2 = some (o, entry)) :
    c.entries.get? key = some o ∧ c.objects[o]? = some entry ∧ c.copy key = some entry ∧
      entry.state ≠ .I ∧ (c.get key).1 = c.touch key := by
  unfold get at h ⊢
  cases ho : c.entries.get? key with
  | none =>
      rw [ho] at h
      cases h
  | some o' =>
      cases hentry : c.objects[o']? with
      | none =>
          simp only [ho, hentry] at h
          cases h
      | some entry' =>
          simp only [ho, hentry] at h
          split at h
          · cases h
          · next hvalid =>
              cases h
              exact ⟨rfl, hentry, by rw [copy_of_entry ho, hentry], hvalid, by
                simp only [hentry, if_neg hvalid]⟩

theorem get_eq_none (h : (c.get key).2 = none) :
    (c.get key).1 = c ∧ ∀ e, c.copy key = some e → e.state = .I := by
  unfold get at h ⊢
  cases ho : c.entries.get? key with
  | none =>
      refine ⟨rfl, fun e he => ?_⟩
      rw [copy_eq_none ho] at he
      cases he
  | some o =>
      cases hentry : c.objects[o]? with
      | none =>
          refine ⟨by simp only [hentry], fun e he => ?_⟩
          rw [copy_of_entry ho, hentry] at he
          cases he
      | some entry =>
          simp only [ho, hentry] at h
          split at h
          · next hinvalid =>
              refine ⟨by simp only [hentry, if_pos hinvalid], fun e he => ?_⟩
              rw [copy_of_entry ho, hentry] at he
              cases he
              exact hinvalid
          · cases h

end LruCache
