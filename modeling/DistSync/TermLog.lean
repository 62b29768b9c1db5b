/-
**Logs whose entries carry terms, grounded in one canonical log per term.**

In a replicated log each entry is stamped with a term, and for each term there is one writer.
Write `canon T` for the log of the writer of the term `T`, as far as it has got.  A log is
*grounded* when every entry of it, together with everything in front of it, is a prefix of the
canonical log of the entry's term.  Groundedness says of one log what log matching says of two:
two grounded logs that have entries of the same term at an index agree up to that index, because
both are prefixes of the same canonical log there.  Unlike log matching it is local, so it is easy
to keep.

A follower that receives a grounded log `M` either has all of it already, or takes it over and
forgets what conflicts with it; the result is `overlay log M`.

Main definitions:

* `TermLog.Grounded` — every prefix of the log is one of the canonical log of its last term;
* `TermLog.Matching` — log matching, said of two logs;
* `TermLog.overlay` — a log after a replica of another one was installed over it;
* `TermLog.commonPrefix` — how far two logs agree;
* `TermLog.InTermOrder` — terms do not go down along a log, and lie between two bounds.

Main results:

* `TermLog.Grounded.matching` — **grounded logs match**;
* `TermLog.Grounded.overlay`, `TermLog.Grounded.snoc` — installing a grounded log, and writing a
  new entry, keep logs grounded;
* `TermLog.overlay_keeps` — what the two logs share is not lost;
* `TermLog.commonPrefix_le_overlay` — **installing a state of a log never shrinks what is shared
  with it**;
* `TermLog.InTermOrder.take`, `TermLog.InTermOrder.drop` — a log in term order, cut at an entry.
-/

import Mathlib.Data.List.Infix
import Mathlib.Data.List.Pairwise
import Mathlib.Logic.Function.Basic

set_option relaxedAutoImplicit false
set_option autoImplicit false

namespace TermLog

variable {ε : Type*} {termOf : ε → ℕ} {canon canon' : ℕ → List ε} {log log₁ log₂ M X : List ε}

/-! ### Prefixes of lists -/

/-- Two lists with the same entry at a position, both prefixes of a third, agree up to there. -/
theorem take_eq_of_isPrefix {C : List ε} {k : ℕ} (h₁ : log₁.take k <+: C) (h₂ : log₂.take k <+: C)
    (hk₁ : k ≤ log₁.length) (hk₂ : k ≤ log₂.length) : log₁.take k = log₂.take k := by
  rw [List.prefix_iff_eq_take.1 h₁, List.prefix_iff_eq_take.1 h₂]
  simp [hk₁, hk₂]

theorem take_succ_eq_append {k : ℕ} {e : ε} (h : log[k]? = some e) :
    log.take (k + 1) = log.take k ++ [e] := by
  rw [List.take_add_one, h]
  rfl

theorem drop_eq_cons {k : ℕ} {e : ε} (h : log[k]? = some e) :
    log.drop k = e :: log.drop (k + 1) := by
  obtain ⟨hk, rfl⟩ := List.getElem?_eq_some_iff.1 h
  exact List.drop_eq_getElem_cons hk

/-- A prefix has the entries of the whole list. -/
theorem getElem?_of_isPrefix (h : log₁ <+: log₂) {k : ℕ} {e : ε} (hk : log₁[k]? = some e) :
    log₂[k]? = some e := by
  obtain ⟨t, rfl⟩ := h
  obtain ⟨hlt, -⟩ := List.getElem?_eq_some_iff.1 hk
  rwa [List.getElem?_append_left hlt]

/-! ### Grounded logs -/

/-- **Grounded logs**: an entry of term `T` and all that is in front of it are a prefix of the
canonical log of `T`. -/
def Grounded (termOf : ε → ℕ) (canon : ℕ → List ε) (log : List ε) : Prop :=
  ∀ i e, log[i]? = some e → log.take (i + 1) <+: canon (termOf e)

theorem grounded_nil : Grounded termOf canon [] := by
  intro i e h
  simp at h

theorem Grounded.of_isPrefix (h : Grounded termOf canon log₂) (hpre : log₁ <+: log₂) :
    Grounded termOf canon log₁ := by
  intro i e hi
  have htake : log₁.take (i + 1) <+: log₂.take (i + 1) := hpre.take (i + 1)
  exact htake.trans (h i e (getElem?_of_isPrefix hpre hi))

/-- Canonical logs may grow. -/
theorem Grounded.mono (h : Grounded termOf canon log) (hgrow : ∀ T, canon T <+: canon' T) :
    Grounded termOf canon' log :=
  fun i e hi => (h i e hi).trans (hgrow _)

/-- **Grounded logs match**: where two of them have entries of the same term, they are the same
up to there. -/
theorem Grounded.matching (h₁ : Grounded termOf canon log₁) (h₂ : Grounded termOf canon log₂)
    {i : ℕ} {e₁ e₂ : ε} (hi₁ : log₁[i]? = some e₁) (hi₂ : log₂[i]? = some e₂)
    (hterm : termOf e₁ = termOf e₂) : log₁.take (i + 1) = log₂.take (i + 1) := by
  have hlt₁ := (List.getElem?_eq_some_iff.1 hi₁).1
  have hlt₂ := (List.getElem?_eq_some_iff.1 hi₂).1
  refine take_eq_of_isPrefix (h₁ i e₁ hi₁) ?_ hlt₁ hlt₂
  rw [hterm]
  exact h₂ i e₂ hi₂

/-- **Log matching**, said of two logs: where they have entries of the same term, they are the same
up to there. -/
def Matching (termOf : ε → ℕ) (log₁ log₂ : List ε) : Prop :=
  ∀ i e₁ e₂, log₁[i]? = some e₁ → log₂[i]? = some e₂ → termOf e₁ = termOf e₂ →
    log₁.take (i + 1) = log₂.take (i + 1)

theorem Grounded.matches (h₁ : Grounded termOf canon log₁) (h₂ : Grounded termOf canon log₂) :
    Matching termOf log₁ log₂ := fun _ _ _ hi₁ hi₂ hterm => h₁.matching h₂ hi₁ hi₂ hterm

/-- A log matches what it was before it grew. -/
theorem matching_of_isPrefix (h : log₁ <+: log₂) : Matching termOf log₁ log₂ := by
  intro i e₁ e₂ hi _ _
  have hlt := (List.getElem?_eq_some_iff.1 hi).1
  rw [List.prefix_iff_eq_take.1 h, List.take_take, min_eq_left hlt]

theorem Matching.symm (h : Matching termOf log₁ log₂) : Matching termOf log₂ log₁ :=
  fun i e₁ e₂ hi₁ hi₂ hterm => (h i e₂ e₁ hi₂ hi₁ hterm.symm).symm

theorem Matching.of_isPrefix {L : List ε} (h : Matching termOf log L) (hpre : M <+: L) :
    Matching termOf log M := by
  intro i e₁ e₂ hi₁ hi₂ hterm
  have hlt := (List.getElem?_eq_some_iff.1 hi₂).1
  rw [h i e₁ e₂ hi₁ (getElem?_of_isPrefix hpre hi₂) hterm, List.prefix_iff_eq_take.1 hpre,
    List.take_take, min_eq_left hlt]

/-- The writer of a term writes an entry behind its log, which becomes the canonical one. -/
theorem Grounded.snoc (h : Grounded termOf canon log) {e : ε}
    (hgrow : ∀ T, canon T <+: canon' T) (hcanon : canon' (termOf e) = log ++ [e]) :
    Grounded termOf canon' (log ++ [e]) := by
  intro i x hi
  rcases lt_or_ge i log.length with hlt | hge
  · rw [List.getElem?_append_left hlt] at hi
    rw [List.take_append_of_le_length hlt]
    exact h.mono hgrow i x hi
  · have hlen := (List.getElem?_eq_some_iff.1 hi).1
    have hi' : i = log.length := by
      rw [List.length_append, List.length_singleton] at hlen
      omega
    subst hi'
    obtain rfl : e = x := by simpa using hi
    rw [hcanon, List.take_of_length_le (by simp)]

/-! ### Installing a log -/

open Classical in
/-- The log of a replica that has received `M`: unchanged when it has all of `M`, and `M`
otherwise. -/
noncomputable def overlay (log M : List ε) : List ε := if M <+: log then log else M

theorem overlay_of_isPrefix (h : M <+: log) : overlay log M = log := if_pos h

theorem overlay_of_not_isPrefix (h : ¬ M <+: log) : overlay log M = M := if_neg h

/-- A log that only lacks the end of `M` becomes `M`. -/
theorem overlay_of_isPrefix' (h : log <+: M) : overlay log M = M := by
  by_cases hM : M <+: log
  · rw [overlay_of_isPrefix hM]
    exact h.eq_of_length_le hM.length_le
  · exact overlay_of_not_isPrefix hM

/-- A log that differs from `M` at an index of both becomes `M`. -/
theorem overlay_of_ne {i : ℕ} {e e' : ε} (hi : log[i]? = some e) (hi' : M[i]? = some e')
    (hne : e ≠ e') : overlay log M = M := by
  refine overlay_of_not_isPrefix fun h => hne ?_
  have := getElem?_of_isPrefix h hi'
  rw [hi] at this
  exact Option.some.inj this

/-- Afterwards the replica has all of `M`. -/
theorem prefix_overlay : M <+: overlay log M := by
  by_cases h : M <+: log
  · rwa [overlay_of_isPrefix h]
  · rw [overlay_of_not_isPrefix h]

theorem Grounded.overlay (h : Grounded termOf canon log) (hM : Grounded termOf canon M) :
    Grounded termOf canon (overlay log M) := by
  by_cases hpre : M <+: log
  · rwa [overlay_of_isPrefix hpre]
  · rwa [overlay_of_not_isPrefix hpre]

/-- **Installing `M` does not lose what is also in the log that `M` was taken from.** -/
theorem overlay_keeps {L : List ε} (hX : X <+: log) (hXL : X <+: L) (hML : M <+: L) :
    X <+: overlay log M := by
  rcases List.prefix_or_prefix_of_prefix hXL hML with h | h
  · exact h.trans prefix_overlay
  · rwa [overlay_of_isPrefix (h.trans hX)]

/-- The result still matches the log that `M` was taken from, earlier or later. -/
theorem Matching.overlay {L : List ε} (h : Matching termOf log L) (hML : M <+: L ∨ L <+: M) :
    Matching termOf (overlay log M) L := by
  by_cases hpre : M <+: log
  · rwa [overlay_of_isPrefix hpre]
  · rw [overlay_of_not_isPrefix hpre]
    rcases hML with hML | hLM
    · exact matching_of_isPrefix hML
    · exact (matching_of_isPrefix hLM).symm

/-! ### How far two logs agree -/

/-- The length of the longest common prefix of two logs. -/
def commonPrefix [DecidableEq ε] : List ε → List ε → ℕ
  | e₁ :: log₁, e₂ :: log₂ => if e₁ = e₂ then commonPrefix log₁ log₂ + 1 else 0
  | _, _ => 0

/-- Two logs agree on `k` entries when both have that many and the first ones are the same. -/
theorem le_commonPrefix_iff [DecidableEq ε] {k : ℕ} :
    k ≤ commonPrefix log₁ log₂ ↔ k ≤ log₂.length ∧ log₂.take k <+: log₁ := by
  induction log₁ generalizing log₂ k with
  | nil =>
      rw [commonPrefix, List.prefix_nil, List.take_eq_nil_iff, Nat.le_zero]
      · constructor
        · rintro rfl
          exact ⟨Nat.zero_le _, .inl rfl⟩
        · rintro ⟨hle, rfl | rfl⟩
          · rfl
          · exact Nat.le_zero.1 hle
      · rintro _ _ _ _ ⟨⟩
  | cons e₁ log₁ ih =>
      cases k with
      | zero => simp
      | succ k =>
          cases log₂ with
          | nil => simp [commonPrefix]
          | cons e₂ log₂ =>
              rw [commonPrefix, List.take_succ_cons, List.cons_prefix_cons, List.length_cons]
              by_cases he : e₁ = e₂
              · rw [if_pos he, Nat.add_le_add_iff_right, Nat.add_le_add_iff_right, ih]
                simp [he]
              · rw [if_neg he]
                simp [Ne.symm he]

/-- **Installing an earlier or later state of a log never shrinks what is shared with it.** -/
theorem commonPrefix_le_overlay [DecidableEq ε] {L : List ε} (hML : M <+: L ∨ L <+: M) :
    commonPrefix log L ≤ commonPrefix (overlay log M) L := by
  obtain ⟨hle, hpre⟩ := le_commonPrefix_iff.1 (le_refl (commonPrefix log L))
  refine le_commonPrefix_iff.2 ⟨hle, ?_⟩
  rcases hML with hML | hLM
  · exact overlay_keeps hpre (List.take_prefix _ _) hML
  · exact (List.take_prefix _ _).trans (hLM.trans prefix_overlay)

/-! ### Logs in term order -/

section Order

variable {τ : Type*} [Preorder τ] {key : ε → τ} {lo lo' mid hi hi' : τ}

/-- In a sorted log an entry is at most the ones behind it. -/
theorem key_le_of_sorted (hsorted : (log.map key).Pairwise (· ≤ ·)) {i j : ℕ} {x y : ε}
    (hx : log[i]? = some x) (hy : log[j]? = some y) (hij : i ≤ j) : key x ≤ key y := by
  obtain ⟨hlt, rfl⟩ := List.getElem?_eq_some_iff.1 hx
  obtain ⟨hlt', rfl⟩ := List.getElem?_eq_some_iff.1 hy
  rw [← List.length_map (f := key)] at hlt hlt'
  have hle := hsorted.rel_get_of_le (a := ⟨i, hlt⟩) (b := ⟨j, hlt'⟩) hij
  simpa using hle

/-- **A log in term order**: the terms do not go down along it, and lie between `lo` and `hi`. -/
structure InTermOrder (key : ε → τ) (lo hi : τ) (log : List ε) : Prop where
  sorted : (log.map key).Pairwise (· ≤ ·)
  ge : ∀ e ∈ log, lo ≤ key e
  le : ∀ e ∈ log, key e ≤ hi

namespace InTermOrder

theorem nil : InTermOrder key lo hi [] where
  sorted := .nil
  ge := by simp
  le := by simp

/-- The bounds may be relaxed. -/
theorem mono (h : InTermOrder key lo hi log) (hlo : lo' ≤ lo) (hhi : hi ≤ hi') :
    InTermOrder key lo' hi' log where
  sorted := h.sorted
  ge := fun e he => hlo.trans (h.ge e he)
  le := fun e he => (h.le e he).trans hhi

theorem sublist (h : InTermOrder key lo hi log) (hsub : log₁.Sublist log) :
    InTermOrder key lo hi log₁ where
  sorted := h.sorted.sublist (hsub.map key)
  ge := fun e he => h.ge e (hsub.mem he)
  le := fun e he => h.le e (hsub.mem he)

/-- What is in front of an entry, with the entry, is at most that entry. -/
theorem take (h : InTermOrder key lo hi log) {k : ℕ} {e : ε} (he : log[k]? = some e) :
    InTermOrder key lo (key e) (log.take (k + 1)) where
  sorted := (h.sublist (List.take_sublist ..)).sorted
  ge := (h.sublist (List.take_sublist ..)).ge
  le := by
    intro x hx
    obtain ⟨i, hget⟩ := List.getElem?_of_mem hx
    have hlt : i < k + 1 := by
      have := (List.getElem?_eq_some_iff.1 hget).1
      rw [List.length_take] at this
      omega
    rw [List.getElem?_take_of_lt hlt] at hget
    exact key_le_of_sorted h.sorted hget he (by omega)

/-- An entry and what is behind it are at least that entry. -/
theorem drop (h : InTermOrder key lo hi log) {k : ℕ} {e : ε} (he : log[k]? = some e) :
    InTermOrder key (key e) hi (log.drop k) where
  sorted := (h.sublist (List.drop_sublist ..)).sorted
  le := (h.sublist (List.drop_sublist ..)).le
  ge := by
    intro x hx
    obtain ⟨i, hget⟩ := List.getElem?_of_mem hx
    rw [List.getElem?_drop] at hget
    exact key_le_of_sorted h.sorted he hget (by omega)

/-- The first entry lies within the bounds, and the others behind it. -/
theorem of_cons {e : ε} (h : InTermOrder key lo hi (e :: log)) :
    lo ≤ key e ∧ key e ≤ hi ∧ InTermOrder key (key e) hi log := by
  have hmem : e ∈ e :: log := List.mem_cons_self ..
  have hrest : InTermOrder key (key e) hi (e :: log) := h.drop (k := 0) rfl
  exact ⟨h.ge e hmem, h.le e hmem, hrest.sublist (List.sublist_cons_self ..)⟩

/-- A log may be continued by an entry that is not below its upper bound. -/
theorem snoc (h : InTermOrder key lo mid log) (hlo : lo ≤ mid) {e : ε} (he : mid ≤ key e) :
    InTermOrder key lo (key e) (log ++ [e]) where
  sorted := by
    rw [List.map_append, List.pairwise_append]
    refine ⟨h.sorted, List.pairwise_singleton .., fun a ha b hb => ?_⟩
    obtain ⟨x, hx, rfl⟩ := List.mem_map.1 ha
    obtain rfl := List.mem_singleton.1 hb
    exact (h.le x hx).trans he
  ge := by
    intro x hx
    rcases List.mem_append.1 hx with hx | hx
    · exact h.ge x hx
    · obtain rfl := List.mem_singleton.1 hx
      exact hlo.trans he
  le := by
    intro x hx
    rcases List.mem_append.1 hx with hx | hx
    · exact (h.le x hx).trans he
    · obtain rfl := List.mem_singleton.1 hx
      exact le_rfl

end InTermOrder

end Order

end TermLog
