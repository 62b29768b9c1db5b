/-
**The ideal cache that forgets the least recently used key.**

The contents of the cache are a list of keys with their values, from the least to the most recently
used one.  A use of a key moves it to the end; a put that makes the list too long takes off its
first element, and returns it.

What such a cache should do can also be said without any list, from the history of the operations
and their answers alone: a key has the value of its latest put, unless it has been invalidated or
evicted since; and of two keys the one that was used earlier is forgotten first.  The list is right
in this sense after every operation.

Main definitions:

* `Lru.get`, `Lru.put`, `Lru.invalidate` — the operations on a list;
* `Lru.Event` — an operation with its answer; a history lists the latest one first;
* `Lru.latest`, `Lru.lastUse` — **what the history says** of a key;
* `Lru.Faithful` — the list is what the history says.

Main results:

* `Lru.Faithful.perform` — **the operations keep the list faithful**;
* `Lru.length_perform_le` — it never gets too long;
* `Lru.Faithful.evicted` — what a put evicts was used before all others.
-/

import DistSync.Dict
import Mathlib.Data.List.Nodup

set_option relaxedAutoImplicit false
set_option autoImplicit false

namespace Lru

variable {κ ν : Type*} [DecidableEq κ]

/-! ### Operations -/

/-- The contents without a key. -/
def remove (l : List (κ × ν)) (k : κ) : List (κ × ν) := l.filter fun a => a.1 ≠ k

/-- A key is read, and moves to the end when it is there. -/
def get (l : List (κ × ν)) (k : κ) : List (κ × ν) × Option ν :=
  match Dict.lookupEntry k l with
  | none => (l, none)
  | some v => (remove l k ++ [(k, v)], some v)

theorem get_snd (l : List (κ × ν)) (k : κ) : (get l k).2 = Dict.lookupEntry k l := by
  unfold get
  split
  · next h => exact h.symm
  · next h => exact h.symm

/-- A key is written, and the first one is evicted when the list gets too long. -/
def put (capacity : ℕ) (l : List (κ × ν)) (k : κ) (v : ν) : List (κ × ν) × Option (κ × ν) :=
  let l := remove l k ++ [(k, v)]
  if capacity < l.length then (l.tail, l.head?) else (l, none)

/-- A put evicts something when the list gets too long. -/
theorem put_ne_none_iff {capacity : ℕ} {l : List (κ × ν)} {k : κ} {v : ν} :
    (put capacity l k v).2 ≠ none ↔ capacity < (remove l k ++ [(k, v)]).length := by
  unfold put
  simp only
  split
  · next hfull =>
      refine iff_of_true (fun hnone => ?_) hfull
      exact List.append_ne_nil_of_right_ne_nil _ (List.cons_ne_nil _ _)
        (List.head?_eq_none_iff.1 hnone)
  · next hfit => exact iff_of_false (fun h => h rfl) hfit

/-- A key is taken out. -/
def invalidate (l : List (κ × ν)) (k : κ) : List (κ × ν) := remove l k

/-- An operation. -/
inductive Op (κ ν : Type*)
  | get (k : κ)
  | put (k : κ) (v : ν)
  | invalidate (k : κ)
deriving DecidableEq

/-! ### Histories -/

/-- An operation with its answer. -/
inductive Event (κ ν : Type*)
  | got (k : κ) (answer : Option ν)
  | put (k : κ) (v : ν) (evicted : Option (κ × ν))
  | invalidated (k : κ)
deriving DecidableEq

/-- The contents after an operation, and the operation with its answer. -/
def perform (capacity : ℕ) (l : List (κ × ν)) : Op κ ν → List (κ × ν) × Event κ ν
  | .get k => ((get l k).1, .got k (get l k).2)
  | .put k v => ((put capacity l k v).1, .put k v (put capacity l k v).2)
  | .invalidate k => (invalidate l k, .invalidated k)

/-- **The value of the latest put of a key** that has since been neither invalidated nor evicted. -/
def latest : List (Event κ ν) → κ → Option ν
  | [], _ => none
  | .got _ _ :: h, k => latest h k
  | .put k' v evicted :: h, k =>
      if evicted.map Prod.fst = some k then none else if k = k' then some v else latest h k
  | .invalidated k' :: h, k => if k = k' then none else latest h k

/-- The operation reads or writes the key. -/
def Event.uses (k : κ) : Event κ ν → Bool
  | .got k' _ => k' = k
  | .put k' _ _ => k' = k
  | .invalidated _ => false

/-- **The number of the operation by which a key was last read or written**, or zero. -/
def lastUse : List (Event κ ν) → κ → ℕ
  | [], _ => 0
  | e :: h, k => if e.uses k then h.length + 1 else lastUse h k

theorem lastUse_le (h : List (Event κ ν)) (k : κ) : lastUse h k ≤ h.length := by
  induction h with
  | nil => exact Nat.le_refl _
  | cons e h ih =>
      rw [lastUse, List.length_cons]
      split <;> omega

theorem lastUse_cons_of_not_uses {e : Event κ ν} {k : κ} (he : e.uses k = false)
    (h : List (Event κ ν)) : lastUse (e :: h) k = lastUse h k := by
  rw [lastUse, he]
  rfl

theorem lastUse_cons_of_uses {e : Event κ ν} {k : κ} (he : e.uses k = true)
    (h : List (Event κ ν)) : lastUse (e :: h) k = h.length + 1 := by
  rw [lastUse, he]
  rfl

/-- **The list is what the history says.** -/
structure Faithful (l : List (κ × ν)) (h : List (Event κ ν)) : Prop where
  mem : ∀ k v, (k, v) ∈ l ↔ latest h k = some v
  order : l.Pairwise fun a b => lastUse h a.1 < lastUse h b.1

theorem mem_remove {l : List (κ × ν)} {k k' : κ} {v : ν} :
    (k', v) ∈ remove l k ↔ (k', v) ∈ l ∧ k' ≠ k := by
  rw [remove, List.mem_filter, decide_eq_true_eq]

namespace Faithful

variable {l : List (κ × ν)} {h : List (Event κ ν)}

theorem nil : Faithful ([] : List (κ × ν)) [] :=
  ⟨fun k v => by simp [latest], List.Pairwise.nil⟩

/-- A key occurs once. -/
theorem nodup (hl : Faithful l h) : (l.map Prod.fst).Nodup := by
  rw [List.Nodup, List.pairwise_map]
  exact hl.order.imp fun hlt heq => absurd (heq ▸ hlt) (Nat.lt_irrefl _)

theorem lookupEntry_eq (hl : Faithful l h) (k : κ) : Dict.lookupEntry k l = latest h k := by
  ext v
  rw [Dict.lookupEntry_eq_some_iff hl.nodup, hl.mem]

/-- Where an operation uses no key of the list, the order stays. -/
theorem order_of_not_uses (hl : Faithful l h) {e : Event κ ν}
    (he : ∀ a ∈ l, e.uses a.1 = false) :
    l.Pairwise fun a b => lastUse (e :: h) a.1 < lastUse (e :: h) b.1 := by
  refine hl.order.imp_of_mem fun ha hb hlt => ?_
  rwa [lastUse_cons_of_not_uses (he _ ha), lastUse_cons_of_not_uses (he _ hb)]

/-- **The key that is used moves to the end.** -/
theorem order_use (hl : Faithful l h) {e : Event κ ν} {k : κ}
    (he : ∀ k', e.uses k' = decide (k = k')) (v : ν) : (remove l k ++ [(k, v)]).Pairwise
      fun a b => lastUse (e :: h) a.1 < lastUse (e :: h) b.1 := by
  have hother : ∀ a ∈ remove l k, lastUse (e :: h) a.1 = lastUse h a.1 := fun a ha =>
    lastUse_cons_of_not_uses (by
      rw [he, decide_eq_false_iff_not]
      exact (mem_remove.1 ha).2.symm) h
  have hself : lastUse (e :: h) k = h.length + 1 :=
    lastUse_cons_of_uses (by rw [he, decide_eq_true rfl]) h
  refine List.pairwise_append.2 ⟨?_, List.pairwise_singleton _ _, fun a ha b hb => ?_⟩
  · refine (hl.order.filter _).imp_of_mem fun ha hb hlt => ?_
    rwa [hother _ ha, hother _ hb]
  · rw [List.mem_singleton.1 hb, hself, hother a ha]
    exact Nat.lt_succ_of_le (lastUse_le h a.1)

theorem get (hl : Faithful l h) (k : κ) :
    Faithful (Lru.get l k).1 (.got k (Lru.get l k).2 :: h) := by
  unfold Lru.get
  split
  · next hnone =>
      -- a key that is not there is used by nobody
      refine ⟨fun k' v => hl.mem k' v, hl.order_of_not_uses fun a ha => ?_⟩
      rw [Event.uses, decide_eq_false_iff_not]
      rintro rfl
      rw [hl.lookupEntry_eq, (hl.mem a.1 a.2).1 ha] at hnone
      cases hnone
  · next v hv =>
      rw [hl.lookupEntry_eq] at hv
      refine ⟨fun k' v' => ?_, hl.order_use (fun _ => rfl) v⟩
      rw [latest, List.mem_append, mem_remove, List.mem_singleton, Prod.mk.injEq, hl.mem]
      constructor
      · rintro (⟨hlatest, -⟩ | ⟨rfl, rfl⟩)
        · exact hlatest
        · exact hv
      · intro hlatest
        by_cases hk : k' = k
        · subst hk
          exact .inr ⟨rfl, Option.some.inj (hlatest.symm.trans hv)⟩
        · exact .inl ⟨hlatest, hk⟩

theorem invalidate (hl : Faithful l h) (k : κ) :
    Faithful (Lru.invalidate l k) (.invalidated k :: h) := by
  refine ⟨fun k' v => ?_, ?_⟩
  · rw [Lru.invalidate, mem_remove, hl.mem, latest]
    by_cases hk : k' = k
    · rw [if_pos hk]
      exact ⟨fun h => absurd hk h.2, fun h => by cases h⟩
    · rw [if_neg hk]
      exact and_iff_left hk
  · refine (hl.order.filter _).imp_of_mem fun _ _ hlt => ?_
    rwa [lastUse_cons_of_not_uses rfl, lastUse_cons_of_not_uses rfl]

/-- A key that is written is there, and moves to the end. -/
theorem put_none (hl : Faithful l h) (k : κ) (v : ν) :
    Faithful (remove l k ++ [(k, v)]) (.put k v none :: h) := by
  refine ⟨fun k' v' => ?_, hl.order_use (fun _ => rfl) v⟩
  rw [List.mem_append, mem_remove, List.mem_singleton, Prod.mk.injEq, hl.mem, latest,
    Option.map_none, if_neg (by simp)]
  by_cases hk : k' = k
  · rw [if_pos hk, Option.some_inj]
    constructor
    · rintro (⟨-, hne⟩ | ⟨-, rfl⟩)
      · exact absurd hk hne
      · rfl
    · rintro rfl
      exact .inr ⟨hk, rfl⟩
  · rw [if_neg hk]
    constructor
    · rintro (⟨hlatest, -⟩ | ⟨heq, -⟩)
      · exact hlatest
      · exact absurd heq hk
    · exact fun hlatest => .inl ⟨hlatest, hk⟩

/-- The first key is taken off. -/
theorem evict {a : κ × ν} {rest : List (κ × ν)} {k : κ} {v : ν}
    (hl : Faithful (a :: rest) (.put k v none :: h)) : Faithful rest (.put k v (some a) :: h) := by
  obtain ⟨hfirst, horder⟩ := List.pairwise_cons.1 hl.order
  refine ⟨fun k' v' => ?_, horder⟩
  have hmem := hl.mem k' v'
  rw [latest, Option.map_none, if_neg (by simp)] at hmem
  rw [latest, Option.map_some]
  by_cases hk : a.1 = k'
  · rw [if_pos (congrArg some hk)]
    exact ⟨fun h => absurd (hk ▸ hfirst _ h) (Nat.lt_irrefl _), fun h => by cases h⟩
  · rw [if_neg fun h => hk (Option.some.inj h), ← hmem, List.mem_cons]
    exact ⟨.inr, fun h => h.resolve_left fun heq => hk (by rw [← heq])⟩

theorem put (hl : Faithful l h) (capacity : ℕ) (k : κ) (v : ν) :
    Faithful (Lru.put capacity l k v).1 (.put k v (Lru.put capacity l k v).2 :: h) := by
  have hnew := hl.put_none k v
  unfold Lru.put
  simp only
  split
  · cases hlist : remove l k ++ [(k, v)] with
    | nil => exact absurd hlist (List.append_ne_nil_of_right_ne_nil _ (List.cons_ne_nil _ _))
    | cons a rest =>
        rw [hlist] at hnew
        exact hnew.evict
  · exact hnew

/-- **The operations keep the list faithful.** -/
theorem perform (hl : Faithful l h) (capacity : ℕ) (op : Op κ ν) :
    Faithful (Lru.perform capacity l op).1 ((Lru.perform capacity l op).2 :: h) := by
  cases op with
  | get k => exact hl.get k
  | put k v => exact hl.put capacity k v
  | invalidate k => exact hl.invalidate k

end Faithful

/-! ### What a put evicts -/

section Put

variable {l : List (κ × ν)} {h : List (Event κ ν)} {capacity : ℕ} {k : κ} {v : ν}

theorem length_put_le (hl : l.length ≤ capacity) : (put capacity l k v).1.length ≤ capacity := by
  have hremove : (remove l k).length ≤ l.length := List.length_filter_le _ _
  unfold put
  simp only
  split
  · rw [List.length_tail, List.length_append, List.length_singleton]
    omega
  · next hfit => exact Nat.le_of_not_lt hfit

theorem length_get_le (hl : Faithful l h) (k : κ) : (get l k).1.length ≤ l.length := by
  unfold get
  split
  · exact Nat.le_refl _
  · next v hv =>
      have hmem := (Dict.lookupEntry_eq_some_iff hl.nodup).1 hv
      have hlt : (remove l k).length < l.length :=
        List.length_filter_lt_length_iff_exists.2 ⟨_, hmem, by simp⟩
      rw [List.length_append, List.length_singleton]
      omega

/-- **The list never gets too long.** -/
theorem length_perform_le (hl : Faithful l h) (hlength : l.length ≤ capacity) (op : Op κ ν) :
    (perform capacity l op).1.length ≤ capacity := by
  cases op with
  | get k => exact Nat.le_trans (length_get_le hl k) hlength
  | put k v => exact length_put_le hlength
  | invalidate k => exact Nat.le_trans (List.length_filter_le _ _) hlength

/-- **What is evicted was there, and was used before all others.** -/
theorem Faithful.evicted (hl : Faithful l h) (hcapacity : 0 < capacity) {a : κ × ν}
    (ha : (Lru.put capacity l k v).2 = some a) :
    a ∈ l ∧ a.1 ≠ k ∧ ∀ b ∈ remove l k ++ [(k, v)], b ≠ a →
      lastUse (.put k v (some a) :: h) a.1 < lastUse (.put k v (some a) :: h) b.1 := by
  have hnew := (hl.put_none k v).order
  unfold Lru.put at ha
  simp only at ha
  split at ha
  · next hfull =>
      cases hremove : remove l k with
      | nil =>
          rw [hremove] at hfull
          exact absurd hfull (by simp; omega)
      | cons a' rest =>
          rw [hremove] at ha hnew
          obtain rfl := Option.some.inj ha
          obtain ⟨hmem, hk⟩ :=
            mem_remove.1 (show (a'.1, a'.2) ∈ remove l k from hremove ▸ List.mem_cons_self)
          refine ⟨hmem, hk, fun b hb hne => ?_⟩
          exact (List.pairwise_cons.1 hnew).1 b ((List.mem_cons.1 hb).resolve_left hne)
  · cases ha

end Put

end Lru
