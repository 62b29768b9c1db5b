/-
**Points on a ring, and the next one clockwise.**

A ring is a linear order that is closed to a circle: from its greatest point one goes on to the
least one.  The next of finitely many points after a position is found by binary search in their
sorted list, with a step back to the start of the list where it ends.  The list may hold points
several times; the result depends only on which points there are.

Main definitions:

* `HashRing.bisectRight` — the binary search, as in the module `bisect`;
* `HashRing.clockwise` — the point that is found;
* `HashRing.IsNext` — **the next point after a position on the ring**.

Main results:

* `HashRing.bisectRight_spec` — what is before the index is not above the position, the rest is;
* `HashRing.isNext_clockwise` — the search finds the next point;
* `HashRing.clockwise_congr` — **lists with the same points give the same point**.
-/

import Mathlib.Order.Defs.LinearOrder
import Mathlib.Data.List.Basic
import Mathlib.Data.List.Pairwise
import Mathlib.Data.Set.Basic

set_option relaxedAutoImplicit false
set_option autoImplicit false

namespace HashRing

variable {α : Type*} [LinearOrder α]

/-! ### Binary search -/

/-- The loop of `bisect_right` on the part of the list from `lo` to `hi`. -/
def bisectLoop (keys : List α) (x : α) (lo hi : ℕ) : ℕ :=
  if lo < hi then
    match keys[(lo + hi) / 2]? with
    | some key =>
        if x < key then bisectLoop keys x lo ((lo + hi) / 2)
        else bisectLoop keys x ((lo + hi) / 2 + 1) hi
    | none => lo
  else lo
termination_by hi - lo
decreasing_by all_goals omega

/-- **`bisect.bisect_right`**: the place after all keys up to `x` in a sorted list. -/
def bisectRight (keys : List α) (x : α) : ℕ := bisectLoop keys x 0 keys.length

/-- The index parts the list into the keys up to `x` and those above it. -/
structure Parts (keys : List α) (x : α) (index : ℕ) : Prop where
  index_le : index ≤ keys.length
  low : ∀ i key, keys[i]? = some key → i < index → key ≤ x
  high : ∀ i key, keys[i]? = some key → index ≤ i → x < key

/-- The keys of a sorted list go up. -/
theorem le_of_sorted {keys : List α} (hsorted : keys.Pairwise (· ≤ ·)) {i j : ℕ} {key key' : α}
    (hi : keys[i]? = some key) (hj : keys[j]? = some key') (hij : i ≤ j) : key ≤ key' := by
  obtain ⟨hi', rfl⟩ := List.getElem?_eq_some_iff.1 hi
  obtain ⟨hj', rfl⟩ := List.getElem?_eq_some_iff.1 hj
  exact hsorted.rel_get_of_le (a := ⟨i, hi'⟩) (b := ⟨j, hj'⟩) hij

/-- What the loop keeps: the keys before `lo` are up to `x`, those from `hi` on are above it. -/
theorem parts_bisectLoop {keys : List α} (hsorted : keys.Pairwise (· ≤ ·)) (x : α) (lo hi : ℕ)
    (hle : lo ≤ hi) (hlength : hi ≤ keys.length)
    (hlow : ∀ i key, keys[i]? = some key → i < lo → key ≤ x)
    (hhigh : ∀ i key, keys[i]? = some key → hi ≤ i → x < key) :
    Parts keys x (bisectLoop keys x lo hi) := by
  induction lo, hi using bisectLoop.induct keys x with
  | case1 lo hi hlt key hkey hx ih =>
      rw [bisectLoop, if_pos hlt, hkey]
      simp only [hx, if_true]
      refine ih (by omega) (by omega) hlow fun i key' hkey' hi => ?_
      exact lt_of_lt_of_le hx (le_of_sorted hsorted hkey hkey' hi)
  | case2 lo hi hlt key hkey hx ih =>
      rw [bisectLoop, if_pos hlt, hkey]
      simp only [hx, if_false]
      refine ih (by omega) hlength (fun i key' hkey' hi => ?_) hhigh
      exact le_trans (le_of_sorted hsorted hkey' hkey (by omega)) (not_lt.1 hx)
  | case3 lo hi hlt hkey =>
      rw [List.getElem?_eq_none_iff] at hkey
      omega
  | case4 lo hi hlt =>
      rw [bisectLoop, if_neg hlt]
      exact ⟨by omega, hlow, fun i key hkey hi => hhigh i key hkey (by omega)⟩

/-- **What `bisect_right` finds.** -/
theorem bisectRight_spec {keys : List α} (hsorted : keys.Pairwise (· ≤ ·)) (x : α) :
    Parts keys x (bisectRight keys x) := by
  refine parts_bisectLoop hsorted x 0 keys.length (Nat.zero_le _) (le_refl _) ?_ ?_
  · intro i key _ hi
    omega
  · intro i key hkey hi
    rw [List.getElem?_eq_none hi] at hkey
    cases hkey

/-! ### The next point -/

/-- `p` is the next point after the position `x`: the least one above it, or, where there is none,
the least of all. -/
def IsNext (points : Set α) (x p : α) : Prop :=
  p ∈ points ∧ ((x < p ∧ ∀ q ∈ points, x < q → p ≤ q) ∨
    ((∀ q ∈ points, q ≤ x) ∧ ∀ q ∈ points, p ≤ q))

theorem IsNext.unique {points : Set α} {x p p' : α} (h : IsNext points x p)
    (h' : IsNext points x p') : p = p' := by
  obtain ⟨hp, ⟨hx, hleast⟩ | ⟨hnone, hleast⟩⟩ := h <;>
    obtain ⟨hp', ⟨hx', hleast'⟩ | ⟨hnone', hleast'⟩⟩ := h'
  · exact le_antisymm (hleast p' hp' hx') (hleast' p hp hx)
  · exact absurd hx (not_lt.2 (hnone' p hp))
  · exact absurd hx' (not_lt.2 (hnone p' hp'))
  · exact le_antisymm (hleast p' hp') (hleast' p hp)

/-- The key after the position `x`, with a step back to the start at the end of the list. -/
def clockwise (keys : List α) (x : α) : Option α :=
  let index := bisectRight keys x
  keys[if index = keys.length then 0 else index]?

theorem clockwise_nil (x : α) : clockwise [] x = none := rfl

/-- **The search finds the next point.** -/
theorem isNext_clockwise {keys : List α} (hsorted : keys.Pairwise (· ≤ ·)) {x p : α}
    (h : clockwise keys x = some p) : IsNext {key | key ∈ keys} x p := by
  obtain ⟨-, hlow, hhigh⟩ := bisectRight_spec hsorted x
  refine ⟨List.mem_of_getElem? h, ?_⟩
  unfold clockwise at h
  simp only at h
  split at h
  · next hindex =>
      -- all keys are up to `x`
      refine .inr ⟨fun q hq => ?_, fun q hq => ?_⟩
      · obtain ⟨i, hi, rfl⟩ := List.getElem_of_mem hq
        exact hlow i _ (List.getElem?_eq_getElem hi) (by omega)
      · obtain ⟨i, hi, rfl⟩ := List.getElem_of_mem hq
        exact le_of_sorted hsorted h (List.getElem?_eq_getElem hi) (Nat.zero_le i)
  · refine .inl ⟨hhigh _ p h (le_refl _), fun q hq hx => ?_⟩
    obtain ⟨i, hi, rfl⟩ := List.getElem_of_mem hq
    have hkey := List.getElem?_eq_getElem hi
    refine le_of_sorted hsorted h hkey (not_lt.1 fun hlt => ?_)
    exact absurd hx (not_lt.2 (hlow i _ hkey hlt))

/-- In a list that is not empty something is found. -/
theorem exists_clockwise {keys : List α} (hsorted : keys.Pairwise (· ≤ ·)) (hkeys : keys ≠ [])
    (x : α) : ∃ p, clockwise keys x = some p := by
  have hindex := (bisectRight_spec hsorted x).index_le
  refine ⟨_, List.getElem?_eq_getElem ?_⟩
  show (if bisectRight keys x = keys.length then 0 else bisectRight keys x) < keys.length
  split
  · exact List.length_pos_iff.2 hkeys
  · next hne => exact lt_of_le_of_ne hindex hne

/-- **Lists with the same points give the same point**, whatever the order in which they were sorted
and however often they hold a point. -/
theorem clockwise_congr {keys keys' : List α} (hsorted : keys.Pairwise (· ≤ ·))
    (hsorted' : keys'.Pairwise (· ≤ ·)) (hmem : ∀ key, key ∈ keys ↔ key ∈ keys') (x : α) :
    clockwise keys x = clockwise keys' x := by
  rcases eq_or_ne keys [] with rfl | hne
  · have hnil : keys' = [] := List.eq_nil_iff_forall_not_mem.2 fun key hkey => by
      cases (hmem key).2 hkey
    rw [hnil]
  · obtain ⟨key, hkey⟩ := List.exists_mem_of_ne_nil keys hne
    obtain ⟨p, hp⟩ := exists_clockwise hsorted hne x
    obtain ⟨p', hp'⟩ := exists_clockwise hsorted' (List.ne_nil_of_mem ((hmem key).1 hkey)) x
    have hpoints : {key | key ∈ keys'} = {key | key ∈ keys} := Set.ext fun key => (hmem key).symm
    have hnext' := isNext_clockwise hsorted' hp'
    rw [hpoints] at hnext'
    rw [hp, hp', (isNext_clockwise hsorted hp).unique hnext']

end HashRing
