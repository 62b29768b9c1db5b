/-
**Insertion-ordered dictionaries.**

A dictionary is a list of keys with their values, no key occurring twice.  Setting a key that is
present changes its value in place; setting a new key adds it at the end; erasing a key and setting
it again moves it to the end.  Iteration goes through the list in order.

Main definitions:

* `Dict` — the entries, with the proof that their keys are distinct;
* `Dict.get?`, `Dict.set`, `Dict.erase` — lookup, assignment, removal;
* `Dict.keys`, `Dict.values`.

Main results:

* `Dict.get?_set`, `Dict.get?_erase` — **what a lookup finds after an update**;
* `Dict.get?_eq_some_iff` — lookup and iteration see the same entries;
* `Dict.entries_set_of_new` — a new key comes last.
-/

import Mathlib.Data.List.Induction
import Mathlib.Data.List.Nodup

set_option relaxedAutoImplicit false
set_option autoImplicit false

/-- A dictionary, as the list of its entries in the order of insertion. -/
structure Dict (κ α : Type*) where
  entries : List (κ × α)
  nodup : (entries.map Prod.fst).Nodup

namespace Dict

variable {κ α : Type*}

/-- The empty dictionary. -/
def empty : Dict κ α := ⟨[], List.nodup_nil⟩

instance : EmptyCollection (Dict κ α) := ⟨empty⟩

instance : Inhabited (Dict κ α) := ⟨empty⟩

/-- The keys in order. -/
def keys (d : Dict κ α) : List κ := d.entries.map Prod.fst

/-- The values in order. -/
def values (d : Dict κ α) : List α := d.entries.map Prod.snd

/-- Whether there is no entry. -/
def isEmpty (d : Dict κ α) : Bool := d.entries.isEmpty

@[simp] theorem entries_empty : (∅ : Dict κ α).entries = [] := rfl

@[ext] theorem ext {d d' : Dict κ α} (h : d.entries = d'.entries) : d = d' := by
  cases d; cases d'; cases h; rfl

variable [DecidableEq κ]

/-! ### Entry lists -/

/-- The value of a key in a list of entries. -/
def lookupEntry (k : κ) : List (κ × α) → Option α
  | [] => none
  | (k', v) :: l => if k' = k then some v else lookupEntry k l

/-- A list of entries after `k` was set to `v`. -/
def setEntry (k : κ) (v : α) : List (κ × α) → List (κ × α)
  | [] => [(k, v)]
  | (k', v') :: l => if k' = k then (k, v) :: l else (k', v') :: setEntry k v l

theorem map_fst_setEntry (k : κ) (v : α) (l : List (κ × α)) :
    (setEntry k v l).map Prod.fst =
      if k ∈ l.map Prod.fst then l.map Prod.fst else l.map Prod.fst ++ [k] := by
  induction l with
  | nil => simp [setEntry]
  | cons e l ih =>
      obtain ⟨k', v'⟩ := e
      simp only [setEntry]
      by_cases h : k' = k
      · subst h
        simp
      · rw [if_neg h, List.map_cons, ih]
        by_cases hmem : k ∈ l.map Prod.fst
        · rw [if_pos hmem, List.map_cons, if_pos (List.mem_cons_of_mem _ hmem)]
        · have hnot : k ∉ k' :: l.map Prod.fst := by
            rw [List.mem_cons, not_or]
            exact ⟨fun h' => h h'.symm, hmem⟩
          rw [if_neg hmem, List.map_cons, if_neg hnot, List.cons_append]

theorem nodup_setEntry (k : κ) (v : α) {l : List (κ × α)} (h : (l.map Prod.fst).Nodup) :
    ((setEntry k v l).map Prod.fst).Nodup := by
  rw [map_fst_setEntry]
  split
  · exact h
  · next hk =>
      rw [List.nodup_append]
      refine ⟨h, List.nodup_singleton k, fun a ha b hb hab => hk ?_⟩
      rw [List.mem_singleton] at hb
      rwa [← hb, ← hab]

theorem lookupEntry_setEntry (k k' : κ) (v : α) (l : List (κ × α)) :
    lookupEntry k' (setEntry k v l) = if k' = k then some v else lookupEntry k' l := by
  induction l with
  | nil =>
      by_cases h : k = k'
      · simp [setEntry, lookupEntry, h]
      · simp [setEntry, lookupEntry, h, Ne.symm h]
  | cons e l ih =>
      obtain ⟨a, w⟩ := e
      simp only [setEntry]
      by_cases ha : a = k
      · rw [if_pos ha]
        subst ha
        by_cases h : a = k'
        · simp [lookupEntry, h]
        · simp [lookupEntry, h, Ne.symm h]
      · rw [if_neg ha, lookupEntry, ih]
        by_cases h : a = k'
        · subst h
          simp [lookupEntry, ha]
        · simp [lookupEntry, h]

theorem lookupEntry_eq_none_of_notMem {k : κ} {l : List (κ × α)} (h : k ∉ l.map Prod.fst) :
    lookupEntry k l = none := by
  induction l with
  | nil => rfl
  | cons e l ih =>
      rw [List.map_cons, List.mem_cons, not_or] at h
      rw [lookupEntry, if_neg (fun h' => h.1 h'.symm), ih h.2]

theorem lookupEntry_eq_some_iff {k : κ} {v : α} {l : List (κ × α)}
    (hl : (l.map Prod.fst).Nodup) : lookupEntry k l = some v ↔ (k, v) ∈ l := by
  induction l with
  | nil => simp [lookupEntry]
  | cons e l ih =>
      obtain ⟨a, w⟩ := e
      rw [List.map_cons, List.nodup_cons] at hl
      rw [lookupEntry, List.mem_cons]
      by_cases ha : a = k
      · subst ha
        have hnot : (a, v) ∉ l := fun hmem => hl.1 (List.mem_map.2 ⟨_, hmem, rfl⟩)
        rw [if_pos rfl]
        constructor
        · intro h; exact .inl (by rw [Option.some.inj h])
        · rintro (h | h)
          · rw [(Prod.mk.inj h).2]
          · exact absurd h hnot
      · rw [if_neg ha, ih hl.2]
        constructor
        · exact .inr
        · rintro (h | h)
          · exact absurd (Prod.mk.inj h).1.symm ha
          · exact h

/-! ### Lookup and update -/

/-- The value of a key. -/
def get? (d : Dict κ α) (k : κ) : Option α := lookupEntry k d.entries

/-- The dictionary with a key set to a value. -/
def set (d : Dict κ α) (k : κ) (v : α) : Dict κ α :=
  ⟨setEntry k v d.entries, nodup_setEntry k v d.nodup⟩

/-- The dictionary without a key. -/
def erase (d : Dict κ α) (k : κ) : Dict κ α :=
  ⟨d.entries.filter fun e => e.1 ≠ k, d.nodup.sublist (List.filter_sublist.map _)⟩

/-- The dictionary with a value for the key if it has none. -/
def setdefault (d : Dict κ α) (k : κ) (v : α) : Dict κ α :=
  if (d.get? k).isSome then d else d.set k v

variable {d : Dict κ α} {k k' : κ} {v v' : α}

@[simp] theorem get?_empty : (∅ : Dict κ α).get? k = none := rfl

/-- **A lookup after an assignment.** -/
theorem get?_set : (d.set k v).get? k' = if k' = k then some v else d.get? k' :=
  lookupEntry_setEntry k k' v d.entries

theorem setEntry_of_notMem {k : κ} {v : α} {l : List (κ × α)} (h : k ∉ l.map Prod.fst) :
    setEntry k v l = l ++ [(k, v)] := by
  induction l with
  | nil => rfl
  | cons e l ih =>
      rw [List.map_cons, List.mem_cons, not_or] at h
      rw [setEntry, if_neg (fun h' => h.1 h'.symm), ih h.2, List.cons_append]

@[simp] theorem get?_set_self : (d.set k v).get? k = some v := by
  rw [get?_set, if_pos rfl]

/-- **Lookup and iteration see the same entries.** -/
theorem get?_eq_some_iff : d.get? k = some v ↔ (k, v) ∈ d.entries :=
  lookupEntry_eq_some_iff d.nodup

/-- **A lookup after a removal.** -/
theorem get?_erase : (d.erase k).get? k' = if k' = k then none else d.get? k' := by
  ext v
  rw [get?_eq_some_iff, erase, List.mem_filter]
  by_cases h : k' = k
  · simp [h]
  · simp [h, get?_eq_some_iff]

@[simp] theorem get?_erase_self : (d.erase k).get? k = none := by
  rw [get?_erase, if_pos rfl]

theorem get?_erase_of_ne (h : k' ≠ k) : (d.erase k).get? k' = d.get? k' := by
  rw [get?_erase, if_neg h]

theorem get?_setdefault :
    (d.setdefault k v).get? k' = if k' = k then some ((d.get? k).getD v) else d.get? k' := by
  unfold setdefault
  cases hk : d.get? k with
  | none => simp [get?_set]
  | some w =>
      simp only [Option.isSome_some, if_true, Option.getD_some]
      by_cases h : k' = k
      · rw [if_pos h, h, hk]
      · rw [if_neg h]

theorem isEmpty_iff : d.isEmpty = true ↔ ∀ k, d.get? k = none := by
  rw [isEmpty, List.isEmpty_iff]
  constructor
  · intro h k
    rw [get?, h, lookupEntry]
  · intro h
    rw [List.eq_nil_iff_forall_not_mem]
    rintro ⟨k, v⟩ hmem
    rw [← get?_eq_some_iff, h k] at hmem
    cases hmem

theorem isEmpty_eq_false_iff : d.isEmpty = false ↔ ∃ k v, d.get? k = some v := by
  rw [← Bool.not_eq_true, isEmpty_iff, not_forall]
  simp only [Option.ne_none_iff_exists']

theorem mem_values_iff : v ∈ d.values ↔ ∃ k, d.get? k = some v := by
  simp [values, get?_eq_some_iff]

theorem mem_keys_iff : k ∈ d.keys ↔ ∃ v, d.get? k = some v := by
  simp [keys, get?_eq_some_iff]

theorem get?_eq_none_iff : d.get? k = none ↔ k ∉ d.keys := by
  rw [mem_keys_iff, not_exists, Option.eq_none_iff_forall_ne_some]

/-- A new key is added at the end. -/
theorem entries_set_of_new (h : d.get? k = none) : (d.set k v).entries = d.entries ++ [(k, v)] :=
  setEntry_of_notMem (get?_eq_none_iff.1 h)

/-- The number of entries. -/
def size (d : Dict κ α) : ℕ := d.entries.length

theorem size_set : (d.set k v).size = if k ∈ d.keys then d.size else d.size + 1 := by
  have hlength := congrArg List.length (map_fst_setEntry k v d.entries)
  rw [List.length_map] at hlength
  show (setEntry k v d.entries).length = _
  rw [hlength, keys, size]
  split
  · exact List.length_map _
  · rw [List.length_append, List.length_map, List.length_singleton]

/-- A loop of assignments that agree on a key sets it to their value. -/
theorem get?_foldl_set {γ : Type*} {key : γ → κ} {val : γ → α} {l : List γ} {x : γ} (hx : x ∈ l)
    (hagree : ∀ y ∈ l, key y = key x → val y = val x) :
    (l.foldl (fun d y => d.set (key y) (val y)) d).get? (key x) = some (val x) := by
  induction l using List.reverseRecOn with
  | nil => cases hx
  | append_singleton l y ih =>
      rw [List.foldl_append, List.foldl_cons, List.foldl_nil, get?_set]
      split
      · next hkey =>
          rw [hagree y (List.mem_append_right _ (List.mem_singleton_self _)) hkey.symm]
      · next hkey =>
          have hmem : x ∈ l := by
            refine (List.mem_append.1 hx).resolve_right fun hlast => hkey ?_
            rw [List.mem_singleton.1 hlast]
          exact ih hmem fun z hz => hagree z (List.mem_append_left _ hz)

/-! ### Collecting from the entries -/

omit [DecidableEq κ] in
theorem nodup_entries (d : Dict κ α) : d.entries.Nodup := d.nodup.of_map _

/-- The entries are determined by the lookups, up to their order. -/
theorem entries_perm {d d' : Dict κ α} (h : ∀ k, d.get? k = d'.get? k) :
    d.entries.Perm d'.entries := by
  refine (List.perm_ext_iff_of_nodup d.nodup_entries d'.nodup_entries).2 fun e => ?_
  rw [← get?_eq_some_iff, ← get?_eq_some_iff, h]

theorem entries_perm_of_get? (h : d.get? k = some v) :
    d.entries.Perm ((k, v) :: (d.erase k).entries) := by
  have hnew : (k, v) ∉ (d.erase k).entries := by
    rw [← get?_eq_some_iff, get?_erase_self]
    exact Option.some_ne_none v ∘ Eq.symm
  refine (List.perm_ext_iff_of_nodup d.nodup_entries
    (List.nodup_cons.2 ⟨hnew, nodup_entries _⟩)).2 fun e => ?_
  rw [List.mem_cons, ← get?_eq_some_iff, ← get?_eq_some_iff, get?_erase]
  by_cases hk : e.1 = k
  · rw [if_pos hk, hk, h, Option.some.injEq, Prod.ext_iff]
    simp [hk, eq_comm]
  · simp [Prod.ext_iff, hk]

theorem size_erase (h : k ∈ d.keys) : (d.erase k).size + 1 = d.size := by
  obtain ⟨v, hv⟩ := mem_keys_iff.1 h
  rw [size, size, (entries_perm_of_get? hv).length_eq, List.length_cons]

variable {β : Type*} {f : κ → α → List β}

/-- The lists that `f` makes of the entries, in the order of the entries. -/
def gather (f : κ → α → List β) (d : Dict κ α) : List β :=
  d.entries.flatMap fun e => f e.1 e.2

omit [DecidableEq κ] in
@[simp] theorem gather_empty : gather f ∅ = [] := rfl

omit [DecidableEq κ] in
theorem mem_gather {x : β} : x ∈ gather f d ↔ ∃ e ∈ d.entries, x ∈ f e.1 e.2 := by
  simp [gather]

/-- Taking out what is collected for one key; a missing key is a value that gives nothing. -/
theorem gather_perm {v₀ : α} (hv₀ : f k v₀ = []) :
    (gather f d).Perm (f k ((d.get? k).getD v₀) ++ gather f (d.erase k)) := by
  cases h : d.get? k with
  | none =>
      rw [Option.getD_none, hv₀, List.nil_append]
      refine (entries_perm fun k' => ?_).flatMap_right _
      rw [get?_erase]
      split
      · next hk => rw [hk, h]
      · rfl
  | some v => exact (entries_perm_of_get? h).flatMap_right _

/-- What is collected after an assignment. -/
theorem gather_set : (gather f (d.set k v)).Perm (f k v ++ gather f (d.erase k)) := by
  refine ((entries_perm_of_get? get?_set_self).flatMap_right _).trans ?_
  refine List.Perm.append_left _ ((entries_perm fun k' => ?_).flatMap_right _)
  rw [get?_erase, get?_erase, get?_set]
  split <;> rfl

/-- A key that is added with a value that gives nothing changes nothing. -/
theorem gather_setdefault {v₀ : α} (hv₀ : f k v₀ = []) :
    (gather f (d.setdefault k v₀)).Perm (gather f d) := by
  unfold setdefault
  split
  · exact List.Perm.refl _
  · next h =>
      have hnone : d.get? k = none := by simpa using h
      refine gather_set.trans ((gather_perm hv₀).trans ?_).symm
      rw [hnone, Option.getD_none]

end Dict
