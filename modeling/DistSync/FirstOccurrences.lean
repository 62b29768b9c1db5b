/-
**The first occurrences in a list.**

Where things are met one after the other, and some of them again, the order in which they are met
for the first time is the list without its repetitions, `List.eraseDups`.  It grows at its end when
the list does, and what is left out of the list is left out of it.

Main results:

* `FirstOccurrences.eraseDups_concat` — **a last element is kept where it is new**;
* `FirstOccurrences.filter_eraseDups` — first occurrences of a part of a list;
* `FirstOccurrences.length_eraseDups_of_mem_iff` — how many there are.
-/

import Mathlib.Data.List.Dedup
import Mathlib.Data.List.Induction

set_option relaxedAutoImplicit false
set_option autoImplicit false

namespace FirstOccurrences

variable {ν : Type*} [DecidableEq ν]

/-- A last element is kept where it has not occurred. -/
theorem eraseDups_concat (l : List ν) (a : ν) :
    (l ++ [a]).eraseDups = if a ∈ l then l.eraseDups else l.eraseDups ++ [a] := by
  rw [List.eraseDups_append]
  split
  · next ha => simp [List.removeAll, ha]
  · next ha => simp [List.removeAll, ha, List.eraseDups_cons]

theorem nodup_eraseDups (l : List ν) : l.eraseDups.Nodup := by
  induction l using List.reverseRecOn with
  | nil => exact List.nodup_nil
  | append_singleton l a ih =>
      rw [eraseDups_concat]
      split
      · exact ih
      · next ha =>
          refine List.nodup_append.2 ⟨ih, List.nodup_singleton a, fun b hb c hc => ?_⟩
          rintro rfl
          rw [List.mem_singleton.1 hc, List.mem_eraseDups] at hb
          exact ha hb

theorem head?_eraseDups (l : List ν) : l.eraseDups.head? = l.head? := by
  cases l with
  | nil => rfl
  | cons a l => rw [List.eraseDups_cons]; rfl

/-- The first occurrences of what is left are those that are left of the first occurrences. -/
theorem filter_eraseDups (l : List ν) (p : ν → Bool) :
    l.eraseDups.filter p = (l.filter p).eraseDups := by
  induction l using List.reverseRecOn with
  | nil => rfl
  | append_singleton l a ih =>
      rw [eraseDups_concat, List.filter_append]
      by_cases hp : p a
      · rw [List.filter_cons_of_pos hp, List.filter_nil, eraseDups_concat, ← ih]
        by_cases ha : a ∈ l
        · rw [if_pos ha, if_pos (List.mem_filter.2 ⟨ha, hp⟩)]
        · rw [if_neg ha, if_neg fun h => ha (List.mem_filter.1 h).1, List.filter_append,
            List.filter_cons_of_pos hp, List.filter_nil]
      · rw [List.filter_cons_of_neg hp, List.filter_nil, List.append_nil, ← ih]
        split
        · rfl
        · rw [List.filter_append, List.filter_cons_of_neg hp, List.filter_nil, List.append_nil]

theorem eraseDups_of_nodup {l : List ν} (hl : l.Nodup) : l.eraseDups = l := by
  induction l using List.reverseRecOn with
  | nil => rfl
  | append_singleton l a ih =>
      obtain ⟨hl', -, hdisjoint⟩ := List.nodup_append.1 hl
      have ha : a ∉ l := fun ha => hdisjoint a ha a (List.mem_singleton_self a) rfl
      rw [eraseDups_concat, if_neg ha, ih hl']

/-- A second occurrence is not seen. -/
theorem eraseDups_append_cons_of_mem {l : List ν} {a : ν} (ha : a ∈ l) (l' : List ν) :
    (l ++ a :: l').eraseDups = (l ++ l').eraseDups := by
  rw [List.eraseDups_append, List.eraseDups_append]
  congr 2
  simp [List.removeAll, ha]

/-- What comes first without repetitions stays in front. -/
theorem take_eraseDups_append {l : List ν} (hl : l.Nodup) (l' : List ν) :
    (l ++ l').eraseDups.take l.length = l := by
  rw [List.eraseDups_append, eraseDups_of_nodup hl, List.take_left']
  rfl

/-- A list has as many first occurrences as different elements. -/
theorem length_eraseDups_of_mem_iff {l l' : List ν} (hmem : ∀ a, a ∈ l ↔ a ∈ l') :
    l.eraseDups.length = l'.dedup.length := by
  refine List.Perm.length_eq ((List.perm_ext_iff_of_nodup (nodup_eraseDups l) l'.nodup_dedup).2 ?_)
  intro a
  rw [List.mem_eraseDups, List.mem_dedup, hmem]

end FirstOccurrences
