/-
**Runs of a partial step function, and the rules for reasoning about them.**

A system is given by a partial step function `step : σ → α → Option σ`: the action `a` is enabled
in `s` when `step s a` is defined.  A *run* is a finite sequence of enabled actions, each of them
allowed by a predicate `ok` on the state before the step; taking `ok` to be always true gives all
runs, and a stronger `ok` gives the runs that meet an assumption at every step.

Main definitions:

* `Runs.Run` — one state is reached from another by allowed steps;
* `Runs.exec` — the state after a given list of actions, when all of them are enabled and allowed.

Main results:

* `Runs.Run.invariant` — **the invariant rule**: what one allowed step preserves, a run preserves;
* `Runs.Run.preorder` — the same for a reflexive transitive relation between two states of a run;
* `Runs.Run.simulate` — **the simulation rule**: if every allowed step is matched by a second
  system, then so is every run;
* `Runs.Run.exists_of_work` — **the progress rule**: a goal is reached when the work left shrinks;
* `Runs.Run.of_exec`, `Runs.Run.exists_of_exec` — a list of enabled, allowed actions is a run;
* `Runs.forall_prefix_iff` — **the rule of the first bad action**.
-/

import Mathlib.Data.List.Induction
import Mathlib.Logic.Relation

set_option relaxedAutoImplicit false
set_option autoImplicit false

namespace Runs

variable {σ α β : Type*}

/-- `Run step ok s s'`: the state `s'` is reached from `s` by steps that `ok` allows. -/
inductive Run (step : σ → α → Option σ) (ok : σ → α → Prop) : σ → σ → Prop
  | refl (s : σ) : Run step ok s s
  | tail {s s' s'' : σ} {a : α} : Run step ok s s' → ok s' a → step s' a = some s'' →
      Run step ok s s''

/-- Every action is allowed. -/
def anyAction (_ : σ) (_ : α) : Prop := True

instance (s : σ) (a : α) : Decidable (anyAction s a) := .isTrue trivial

/-- The state after the actions of a list, if all of them are enabled and allowed. -/
def exec (step : σ → α → Option σ) (ok : σ → α → Prop) [∀ s a, Decidable (ok s a)] :
    σ → List α → Option σ
  | s, [] => some s
  | s, a :: as => if ok s a then (step s a).bind fun s' => exec step ok s' as else none

namespace Run

variable {step : σ → α → Option σ} {ok ok' : σ → α → Prop} {s s' s'' : σ}

theorem trans (h : Run step ok s s') (h' : Run step ok s' s'') : Run step ok s s'' := by
  induction h' with
  | refl => exact h
  | tail _ hok hstep ih => exact ih.tail hok hstep

theorem single {a : α} (hok : ok s a) (hstep : step s a = some s') : Run step ok s s' :=
  (Run.refl s).tail hok hstep

/-- A run stays a run when the assumption on its steps is weakened. -/
theorem mono (hmono : ∀ s a, ok s a → ok' s a) (h : Run step ok s s') : Run step ok' s s' := by
  induction h with
  | refl => exact Run.refl _
  | tail _ hok hstep ih => exact ih.tail (hmono _ _ hok) hstep

/-- **The invariant rule.** -/
theorem invariant {I : σ → Prop} (hI : ∀ s a s', I s → ok s a → step s a = some s' → I s')
    (h : Run step ok s s') (hs : I s) : I s' := by
  induction h with
  | refl => exact hs
  | tail _ hok hstep ih => exact hI _ _ _ ih hok hstep

/-- The invariant rule for a relation between the two ends of a run. -/
theorem preorder {R : σ → σ → Prop} (hrefl : ∀ s, R s s)
    (htrans : ∀ s s' s'', R s s' → R s' s'' → R s s'')
    (hR : ∀ s a s', step s a = some s' → R s s') (h : Run step ok s s') : R s s' := by
  induction h with
  | refl => exact hrefl _
  | tail _ _ hstep ih => exact htrans _ _ _ ih (hR _ _ _ hstep)

/-- **The simulation rule**: `R` relates the states of the system to those of a second one, whose
moves are `T`; when every allowed step can be followed by moves of the second system, so can
every run. -/
theorem simulate {τ : Type*} {T : τ → τ → Prop} {R : σ → τ → Prop}
    (hR : ∀ s a s' t, R s t → ok s a → step s a = some s' →
      ∃ t', Relation.ReflTransGen T t t' ∧ R s' t')
    (h : Run step ok s s') {t : τ} (hs : R s t) :
    ∃ t', Relation.ReflTransGen T t t' ∧ R s' t' := by
  induction h with
  | refl => exact ⟨t, .refl, hs⟩
  | tail _ hok hstep ih =>
      obtain ⟨t₁, ht₁, hR₁⟩ := ih
      obtain ⟨t₂, ht₂, hR₂⟩ := hR _ _ _ _ hR₁ hok hstep
      exact ⟨t₂, ht₁.trans ht₂, hR₂⟩

/-- **The progress rule**: where the goal is not reached, an allowed step leads on to less work. -/
theorem exists_of_work {I G : σ → Prop} (work : σ → Nat)
    (hstep : ∀ s, I s → ¬ G s → ∃ a s', ok s a ∧ step s a = some s' ∧ I s' ∧ work s' < work s)
    (hs : I s) : ∃ s', Run step ok s s' ∧ G s' := by
  induction hwork : work s using Nat.strongRecOn generalizing s with
  | _ left ih =>
      by_cases hgoal : G s
      · exact ⟨s, .refl s, hgoal⟩
      · obtain ⟨a, s₁, hok, hnext, hI, hless⟩ := hstep s hs hgoal
        rw [hwork] at hless
        obtain ⟨s', hrun, hgoal'⟩ := ih (work s₁) hless hI rfl
        exact ⟨s', (single hok hnext).trans hrun, hgoal'⟩

theorem exec_cons [∀ s a, Decidable (ok s a)] {a : α} {as : List α} :
    exec step ok s (a :: as) = some s' ↔
      ok s a ∧ ∃ s₁, step s a = some s₁ ∧ exec step ok s₁ as = some s' := by
  rw [exec, Option.ite_none_right_eq_some, Option.bind_eq_some_iff]

theorem exec_append [∀ s a, Decidable (ok s a)] (as : List α) {bs : List α} {s s' : σ} :
    exec step ok s (as ++ bs) = some s' ↔
      ∃ s₁, exec step ok s as = some s₁ ∧ exec step ok s₁ bs = some s' := by
  induction as generalizing s with
  | nil => simp [exec]
  | cons a as ih =>
      rw [List.cons_append, exec_cons]
      constructor
      · rintro ⟨hok, s₀, hstep, hexec⟩
        obtain ⟨s₁, has, hbs⟩ := ih.1 hexec
        exact ⟨s₁, exec_cons.2 ⟨hok, s₀, hstep, has⟩, hbs⟩
      · rintro ⟨s₁, has, hbs⟩
        obtain ⟨hok, s₀, hstep, has'⟩ := exec_cons.1 has
        exact ⟨hok, s₀, hstep, ih.2 ⟨s₁, has', hbs⟩⟩

/-- Enabled and allowed actions form a run. -/
theorem of_exec [∀ s a, Decidable (ok s a)] :
    ∀ (as : List α) {s s' : σ}, exec step ok s as = some s' → Run step ok s s'
  | [], s, s', h => by
      obtain rfl : s = s' := by simpa [exec] using h
      exact Run.refl s
  | a :: as, s, s', h => by
      obtain ⟨hok, s₁, hs₁, has⟩ := exec_cons.1 h
      exact (single hok hs₁).trans (of_exec as has)

/-- A run to a state with a given property, from its evaluation. -/
theorem exists_of_exec (step : σ → α → Option σ) (ok : σ → α → Prop)
    [∀ s a, Decidable (ok s a)] (s : σ) (as : List α) (P : σ → Prop) [DecidablePred P]
    (h : ((exec step ok s as).any fun s' => decide (P s')) = true) :
    ∃ s', Run step ok s s' ∧ P s' := by
  obtain ⟨s', hs', hP⟩ := (Option.any_eq_true _ _).1 h
  exact ⟨s', of_exec as hs', of_decide_eq_true hP⟩

end Run

/-- **The rule of the first bad action.**  When the bad actions destroy a property of the actions so
far, and no others do, then it holds all along if and only if no action is bad. -/
theorem forall_prefix_iff {P : List α → Prop} {Bad : List α → α → Prop} {as : List α}
    (hinit : P [])
    (hstep : ∀ pre a, pre ++ [a] <+: as → P pre → (P (pre ++ [a]) ↔ ¬ Bad pre a)) :
    (∀ pre, pre <+: as → P pre) ↔ ∀ pre a, pre ++ [a] <+: as → ¬ Bad pre a := by
  constructor
  · intro hall pre a hpre
    have hpre' : pre <+: as := (List.prefix_append pre [a]).trans hpre
    exact (hstep pre a hpre (hall pre hpre')).1 (hall _ hpre)
  · intro hok pre hpre
    induction pre using List.reverseRecOn with
    | nil => exact hinit
    | append_singleton pre a ih =>
        have hpre' : pre <+: as := (List.prefix_append pre [a]).trans hpre
        exact (hstep pre a hpre (ih hpre')).2 (hok pre a hpre)

end Runs
