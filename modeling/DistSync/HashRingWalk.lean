/-
**Once around the ring.**

From a position on the ring one can go on clockwise, past all points and back to the start.  The
points come in the order of the sorted list, cut at the place that binary search finds: first the
points above the position, then the others.  So leaving points out of the list leaves them out of
the way around, and changes nothing else.

Main definitions:

* `HashRing.around` — the points, in the order in which they are met.

Main results:

* `HashRing.head?_around` — the first point that is met is the next one clockwise;
* `HashRing.filter_around` — **points that are left out change nothing for the others**.
-/

import DistSync.HashRing
import Mathlib.Data.List.Rotate

set_option relaxedAutoImplicit false
set_option autoImplicit false

namespace HashRing

/-! ### The way around -/

variable {α : Type*} [LinearOrder α]

/-- The points in the order in which they are met after the position `x`. -/
def around (keys : List α) (x : α) : List α :=
  keys.drop (bisectRight keys x) ++ keys.take (bisectRight keys x)

/-- **First the points above the position, then the others.** -/
theorem around_eq_filter {keys : List α} (hsorted : keys.Pairwise (· ≤ ·)) (x : α) :
    around keys x = keys.filter (x < ·) ++ keys.filter (¬ x < ·) := by
  obtain ⟨hindex, hlow, hhigh⟩ := bisectRight_spec hsorted x
  have hbefore : ∀ key ∈ keys.take (bisectRight keys x), ¬ x < key := by
    intro key hkey
    obtain ⟨i, hi, rfl⟩ := List.getElem_of_mem hkey
    rw [List.length_take] at hi
    rw [List.getElem_take]
    exact not_lt.2 (hlow i _ (List.getElem?_eq_getElem (by omega)) (by omega))
  have hafter : ∀ key ∈ keys.drop (bisectRight keys x), x < key := by
    intro key hkey
    obtain ⟨i, hi, rfl⟩ := List.getElem_of_mem hkey
    rw [List.length_drop] at hi
    rw [List.getElem_drop]
    exact hhigh _ _ (List.getElem?_eq_getElem (by omega)) (by omega)
  have habove : keys.filter (x < ·) = keys.drop (bisectRight keys x) := by
    conv_lhs => rw [← List.take_append_drop (bisectRight keys x) keys, List.filter_append]
    rw [List.filter_eq_nil_iff.2 fun key hkey => by simpa using hbefore key hkey, List.nil_append]
    exact List.filter_eq_self.2 fun key hkey => decide_eq_true (hafter key hkey)
  have hbelow : keys.filter (¬ x < ·) = keys.take (bisectRight keys x) := by
    conv_lhs => rw [← List.take_append_drop (bisectRight keys x) keys, List.filter_append]
    rw [List.filter_eq_self.2 fun key hkey => decide_eq_true (hbefore key hkey),
      List.filter_eq_nil_iff.2 fun key hkey => by simpa using hafter key hkey, List.append_nil]
  rw [around, habove, hbelow]

/-- **Points that are left out change nothing for the others.** -/
theorem filter_around {keys : List α} (hsorted : keys.Pairwise (· ≤ ·)) (x : α) (p : α → Bool) :
    (around keys x).filter p = around (keys.filter p) x := by
  rw [around_eq_filter hsorted, around_eq_filter (hsorted.filter p), List.filter_append,
    List.filter_filter, List.filter_filter, List.filter_filter, List.filter_filter]
  simp only [Bool.and_comm]

theorem mem_around {keys : List α} {x key : α} : key ∈ around keys x ↔ key ∈ keys := by
  rw [around, List.mem_append, or_comm, ← List.mem_append, List.take_append_drop]

/-- The first point that is met is the next one clockwise. -/
theorem head?_around {keys : List α} (hsorted : keys.Pairwise (· ≤ ·)) (x : α) :
    (around keys x).head? = clockwise keys x := by
  have hindex := (bisectRight_spec hsorted x).index_le
  rw [around, clockwise, List.head?_append, List.head?_drop]
  split
  · next hend =>
      rw [hend, List.getElem?_eq_none (le_refl _), List.take_length, Option.none_or,
        List.head?_eq_getElem?]
  · next hne =>
      rw [List.getElem?_eq_getElem (lt_of_le_of_ne hindex hne), Option.some_or]

/-- The way around, point by point: indices are counted from the place that binary search finds, and
start again at the end of the list. -/
theorem getElem?_around {keys : List α} (hsorted : keys.Pairwise (· ≤ ·)) (x : α) {offset : ℕ}
    (hoffset : offset < keys.length) :
    keys[((if bisectRight keys x = keys.length then 0 else bisectRight keys x) + offset) %
      keys.length]? = (around keys x)[offset]? := by
  have hindex := (bisectRight_spec hsorted x).index_le
  have haround : around keys x =
      keys.rotate (if bisectRight keys x = keys.length then 0 else bisectRight keys x) := by
    split
    · next hend => rw [around, hend, List.drop_length, List.take_length, List.rotate_zero]; rfl
    · rw [List.rotate_eq_drop_append_take hindex, around]
  rw [haround, List.getElem?_rotate hoffset, Nat.add_comm]

theorem length_around (keys : List α) (x : α) : (around keys x).length = keys.length := by
  rw [around, List.length_append, Nat.add_comm, ← List.length_append, List.take_append_drop]

end HashRing
