/-
**Consensus by terms, over replicated logs.**

Nodes agree on a growing log.  Each term has at most one leader; a quorum elects it by casting
ballots, and a ballot is only counted when the log of the leader is up to date with the log that
the voter had when it cast the ballot.  A leader appends entries of its term to its log.  The other
nodes accept prefixes of it, and acknowledge them; this may remove entries of earlier terms from
their logs.  What a quorum has acknowledged is chosen, if the last entry of it is of the leader's
own term: whoever leads a later term starts with all of it.

The state remembers what has happened: all ballots with the logs of the voters, the log of each
leader as far as it got, and how much of it each node has acknowledged.

Main definitions:

* `TermConsensus.State`, `TermConsensus.Move` — the nodes and their past, and what they may do;
* `TermConsensus.Chosen`, `TermConsensus.Committed` — what is agreed on;
* `TermConsensus.Inv` — the invariant.

Main results:

* `TermConsensus.Inv.complete` — **leaders start with all that was chosen before**;
* `TermConsensus.Inv.comparable` — chosen logs are prefixes of each other.

That the moves preserve the invariant is `DistSync/TermConsensusMoves.lean`.
-/

import DistSync.TermLog
import Mathlib.Data.Finset.Defs

set_option relaxedAutoImplicit false
set_option autoImplicit false

namespace TermConsensus

open TermLog

variable {ν ε : Type*}

/-! ### States -/

/-- Sets of nodes, any two of which meet. -/
structure Quorums (ν : Type*) where
  IsQuorum : Finset ν → Prop
  inter : ∀ {Q R : Finset ν}, IsQuorum Q → IsQuorum R → ∃ p ∈ Q, p ∈ R

/-- The leader of a term, the voters that elected it, its log at that moment, and its log as far as
it got in the term. -/
structure Lead (ν ε : Type*) where
  leader : ν
  electors : Finset ν
  start : List ε
  log : List ε

/-- The nodes and their past.  A ballot is the candidate with the log that the voter had;
`acked p T` is the length of what `p` has acknowledged of the log of the leader of `T`. -/
structure State (ν ε : Type*) where
  term : ν → ℕ
  log : ν → List ε
  ballot : ν → ℕ → Option (ν × List ε)
  lead : ℕ → Option (Lead ν ε)
  acked : ν → ℕ → ℕ

/-- Nothing has happened. -/
def initial : State ν ε where
  term := fun _ => 0
  log := fun _ => []
  ballot := fun _ _ => none
  lead := fun _ => none
  acked := fun _ _ => 0

variable {t t' : State ν ε} {p : ν} {T T' : ℕ} {l : Lead ν ε}

/-- The log of the leader of a term. -/
def State.canon (t : State ν ε) (T : ℕ) : List ε := ((t.lead T).map Lead.log).getD []

theorem canon_of_lead (h : t.lead T = some l) : t.canon T = l.log := by
  rw [State.canon, h]
  rfl

theorem canon_of_none (h : t.lead T = none) : t.canon T = [] := by
  rw [State.canon, h]
  rfl

theorem lead_of_canon {e : ε} (h : e ∈ t.canon T) : ∃ l, t.lead T = some l ∧ e ∈ l.log := by
  cases hl : t.lead T with
  | none =>
      rw [canon_of_none hl] at h
      cases h
  | some l =>
      rw [canon_of_lead hl] at h
      exact ⟨l, rfl, h⟩

/-! ### Moves -/

/-- The log `C` is up to date with `L`: it ends with an entry of a later term, or of the same term
and is not shorter. -/
def UpToDate (termOf : ε → ℕ) (C L : List ε) : Prop :=
  ∀ e ∈ L.getLast?, ∃ e' ∈ C.getLast?,
    termOf e < termOf e' ∨ termOf e' = termOf e ∧ L.length ≤ C.length

section Moves

variable [DecidableEq ν] (t)

/-- A node goes to a term. -/
def State.adopt (p : ν) (T : ℕ) : State ν ε := { t with term := Function.update t.term p T }

/-- A node acknowledges a part of the log of the leader of a term. -/
def State.ack (p : ν) (T k : ℕ) : State ν ε :=
  { t with acked := fun q T' => if q = p ∧ T' = T then max (t.acked q T') k else t.acked q T' }

/-- A node casts its ballot of a term. -/
def State.cast (p : ν) (T : ℕ) (c : ν) : State ν ε :=
  { t.adopt p T with
    ballot := fun q T' => if q = p ∧ T' = T then some (c, t.log p) else t.ballot q T' }

/-- A candidate becomes leader of its term. -/
def State.win (c : ν) (Q : Finset ν) : State ν ε :=
  { t.ack c (t.term c) (t.log c).length with
    lead := Function.update t.lead (t.term c) (some ⟨c, Q, t.log c, t.log c⟩) }

/-- The leader of a term appends an entry. -/
def State.append (n : ν) (l : Lead ν ε) (e : ε) : State ν ε :=
  { t.ack n (t.term n) ((t.log n).length + 1) with
    log := Function.update t.log n (t.log n ++ [e])
    lead := Function.update t.lead (t.term n) (some { l with log := l.log ++ [e] }) }

/-- A node accepts a prefix of the log of the leader of a term. -/
noncomputable def State.accept (p : ν) (T : ℕ) (M : List ε) : State ν ε :=
  { (t.adopt p T).ack p T M.length with
    log := Function.update t.log p (overlay (t.log p) M) }

/-- **What a node may do.** -/
inductive Move (A : Quorums ν) (termOf : ε → ℕ) : ν → State ν ε → Prop
  | adopt {p : ν} {T : ℕ} (hterm : t.term p ≤ T) : Move A termOf p (t.adopt p T)
  | cast {p c : ν} {T : ℕ} (hterm : t.term p ≤ T) (hfree : t.ballot p T = none) :
      Move A termOf p (t.cast p T c)
  | win {c : ν} {Q : Finset ν} (hpos : 0 < t.term c) (hfree : t.lead (t.term c) = none)
      (hQ : A.IsQuorum Q)
      (hvotes : ∀ p ∈ Q, ∃ L, t.ballot p (t.term c) = some (c, L) ∧ UpToDate termOf (t.log c) L) :
      Move A termOf c (t.win c Q)
  | append {n : ν} {l : Lead ν ε} {e : ε} (hlead : t.lead (t.term n) = some l) (hn : l.leader = n)
      (he : termOf e = t.term n) : Move A termOf n (t.append n l e)
  | accept {p : ν} {T : ℕ} {l : Lead ν ε} {M : List ε} (hterm : t.term p ≤ T)
      (hlead : t.lead T = some l) (hp : p ≠ l.leader) (hM : M <+: l.log) :
      Move A termOf p (t.accept p T M)

variable {t}

theorem lt_ack {q : ν} {j k : ℕ} :
    j < (t.ack p T k).acked q T' ↔ j < t.acked q T' ∨ q = p ∧ T' = T ∧ j < k := by
  simp only [State.ack]
  split
  · next h => simp [h.1, h.2]
  · next h =>
      constructor
      · exact .inl
      · rintro (hj | ⟨hq, hT, -⟩)
        · exact hj
        · exact absurd ⟨hq, hT⟩ h

theorem le_ack {k : ℕ} : k ≤ (t.ack p T k).acked p T := by
  simp [State.ack]

theorem acked_le_ack {q : ν} {k : ℕ} : t.acked q T' ≤ (t.ack p T k).acked q T' := by
  simp only [State.ack]
  split
  · exact le_max_left _ _
  · exact le_rfl

end Moves

/-! ### What stays -/

/-- What is remembered stays: terms, ballots, leaders with their logs, and acknowledgements. -/
structure Extends (t t' : State ν ε) : Prop where
  term : ∀ p, t.term p ≤ t'.term p
  ballot : ∀ p T b, t.ballot p T = some b → t'.ballot p T = some b
  lead : ∀ T l, t.lead T = some l → ∃ l', t'.lead T = some l' ∧ l'.leader = l.leader ∧
    l'.electors = l.electors ∧ l'.start = l.start ∧ l.log <+: l'.log
  acked : ∀ p T, t.acked p T ≤ t'.acked p T

theorem Extends.refl (t : State ν ε) : Extends t t where
  term := fun _ => le_rfl
  ballot := fun _ _ _ h => h
  lead := fun _ l h => ⟨l, h, rfl, rfl, rfl, List.prefix_refl _⟩
  acked := fun _ _ => le_rfl

theorem Extends.canon (h : Extends t t') (T : ℕ) : t.canon T <+: t'.canon T := by
  cases hl : t.lead T with
  | none =>
      rw [canon_of_none hl]
      exact List.nil_prefix
  | some l =>
      obtain ⟨l', hl', -, -, -, hlog⟩ := h.lead T l hl
      rwa [canon_of_lead hl, canon_of_lead hl']

/-- What one node's move leaves alone at another node. -/
structure Apart (t t' : State ν ε) (m : ν) : Prop where
  term : t'.term m = t.term m
  log : t'.log m = t.log m
  ballot : ∀ T, t'.ballot m T = t.ballot m T
  led : ∀ T l', t'.lead T = some l' → l'.leader = m → ∃ l, t.lead T = some l ∧ l.leader = m

theorem Apart.refl (t : State ν ε) (m : ν) : Apart t t m :=
  ⟨rfl, rfl, fun _ => rfl, fun _ l hl hm => ⟨l, hl, hm⟩⟩

section Moves

variable [DecidableEq ν] {A : Quorums ν} {termOf : ε → ℕ} {n m : ν}

omit [DecidableEq ν] in
/-- New leads, where the lead of one term is written. -/
theorem Extends.lead_update {l₀ : Lead ν ε} (h : ∀ l, t.lead T = some l → l₀.leader = l.leader ∧
      l₀.electors = l.electors ∧ l₀.start = l.start ∧ l.log <+: l₀.log)
    (T' : ℕ) (l : Lead ν ε) (hl : t.lead T' = some l) :
    ∃ l', Function.update t.lead T (some l₀) T' = some l' ∧ l'.leader = l.leader ∧
      l'.electors = l.electors ∧ l'.start = l.start ∧ l.log <+: l'.log := by
  by_cases hT : T' = T
  · subst hT
    exact ⟨l₀, Function.update_self _ _ _, h l hl⟩
  · rw [Function.update_of_ne hT]
    exact ⟨l, hl, rfl, rfl, rfl, List.prefix_refl _⟩

theorem term_adopt_le (hterm : t.term p ≤ T) (q : ν) : t.term q ≤ (t.adopt p T).term q := by
  simp only [State.adopt]
  by_cases hq : q = p
  · subst hq
    rwa [Function.update_self]
  · rw [Function.update_of_ne hq]

/-- **Moves forget nothing.** -/
theorem Move.extends (h : Move t A termOf n t') : Extends t t' := by
  cases h with
  | adopt hterm => exact { Extends.refl t with term := term_adopt_le hterm }
  | @cast c T hterm hfree =>
      refine { Extends.refl t with term := term_adopt_le hterm, ballot := fun q T' b hb => ?_ }
      simp only [State.cast]
      split
      · next heq =>
          rw [heq.1, heq.2, hfree] at hb
          cases hb
      · exact hb
  | win hpos hfree =>
      refine { Extends.refl t with
        lead := Extends.lead_update fun l hl => ?_
        acked := fun _ _ => acked_le_ack }
      rw [hfree] at hl
      cases hl
  | append hlead =>
      refine { Extends.refl t with
        lead := Extends.lead_update fun l' hl => ?_
        acked := fun _ _ => acked_le_ack }
      obtain rfl := Option.some.inj (hlead.symm.trans hl)
      exact ⟨rfl, rfl, rfl, List.prefix_append _ _⟩
  | accept hterm =>
      exact { Extends.refl t with term := term_adopt_le hterm, acked := fun _ _ => acked_le_ack }

/-- **A move only concerns the node that makes it.** -/
theorem Move.apart (h : Move t A termOf n t') (hm : m ≠ n) : Apart t t' m := by
  have hled : ∀ {T₀ : ℕ} {l₀ : Lead ν ε}, l₀.leader = n → ∀ T l',
      Function.update t.lead T₀ (some l₀) T = some l' → l'.leader = m →
        ∃ l, t.lead T = some l ∧ l.leader = m := by
    intro T₀ l₀ hn T l' hl' hm'
    by_cases hT : T = T₀
    · subst hT
      rw [Function.update_self, Option.some.injEq] at hl'
      exact absurd (hm'.symm.trans (hl' ▸ hn)) hm
    · rw [Function.update_of_ne hT] at hl'
      exact ⟨l', hl', hm'⟩
  have hsame : ∀ T l', t.lead T = some l' → l'.leader = m →
      ∃ l, t.lead T = some l ∧ l.leader = m := fun T l' hl hm' => ⟨l', hl, hm'⟩
  cases h with
  | adopt => exact ⟨Function.update_of_ne hm _ _, rfl, fun _ => rfl, hsame⟩
  | cast =>
      refine ⟨Function.update_of_ne hm _ _, rfl, fun T => ?_, hsame⟩
      simp only [State.cast, if_neg (fun h : m = n ∧ _ => hm h.1)]
  | win => exact ⟨rfl, rfl, fun _ => rfl, hled rfl⟩
  | append hlead hn => exact ⟨rfl, Function.update_of_ne hm _ _, fun _ => rfl, hled hn⟩
  | accept =>
      exact ⟨Function.update_of_ne hm _ _, Function.update_of_ne hm _ _, fun _ => rfl, hsame⟩

end Moves

/-! ### The invariant -/

/-- What holds of the leader of a term. -/
structure LeadInv (A : Quorums ν) (termOf : ε → ℕ) (t : State ν ε) (T : ℕ) (l : Lead ν ε) :
    Prop where
  pos : 0 < T
  term : T ≤ t.term l.leader
  quorum : A.IsQuorum l.electors
  elected : ∀ p ∈ l.electors, ∃ L, t.ballot p T = some (l.leader, L) ∧ UpToDate termOf l.start L
  start : l.start <+: l.log
  start_lt : ∀ e ∈ l.start, termOf e < T
  log_le : ∀ e ∈ l.log, termOf e ≤ T
  own : t.term l.leader = T → t.log l.leader = l.log
  grounded : Grounded termOf t.canon l.log
  acked : l.log.length ≤ t.acked l.leader T

/-- A node has acknowledged `X` in the term `T`, and `X` ends with an entry of this term. -/
def Acked (termOf : ε → ℕ) (t : State ν ε) (p : ν) (T : ℕ) (X : List ε) : Prop :=
  ∃ k e, (t.canon T)[k]? = some e ∧ termOf e = T ∧ k < t.acked p T ∧ X = (t.canon T).take (k + 1)

/-- The leaders between two terms start with `X`. -/
def Passed (t : State ν ε) (T T' : ℕ) (X : List ε) : Prop :=
  ∀ T₁ l, t.lead T₁ = some l → T < T₁ → T₁ < T' → X <+: l.start

/-- **The invariant.**  As long as the leaders of later terms start with what a node has
acknowledged, the node keeps it, and casts its ballots with it. -/
structure Inv (A : Quorums ν) (termOf : ε → ℕ) (t : State ν ε) : Prop where
  ballot_le : ∀ p T b, t.ballot p T = some b → T ≤ t.term p
  lead : ∀ T l, t.lead T = some l → LeadInv A termOf t T l
  log_grounded : ∀ p, Grounded termOf t.canon (t.log p)
  log_le : ∀ p, ∀ e ∈ t.log p, termOf e ≤ t.term p
  ballot_grounded : ∀ p T c L, t.ballot p T = some (c, L) → Grounded termOf t.canon L
  acked_le : ∀ p T, t.acked p T ≤ (t.canon T).length
  acked_term : ∀ p T, 0 < t.acked p T → T ≤ t.term p
  held : ∀ p T X, Acked termOf t p T X → Passed t T (t.term p + 1) X → X <+: t.log p
  cast : ∀ p T X T' c L, Acked termOf t p T X → t.ballot p T' = some (c, L) → T < T' →
    (∀ l, t.lead T' = some l → p ∈ l.electors) → Passed t T T' X → X <+: L

variable {A : Quorums ν} {termOf : ε → ℕ} {X Y : List ε}

theorem inv_initial : Inv A termOf (initial : State ν ε) where
  ballot_le := fun _ _ _ h => (by cases h)
  lead := fun _ _ h => (by cases h)
  log_grounded := fun _ => grounded_nil
  log_le := fun _ _ h => (by cases h)
  ballot_grounded := fun _ _ _ _ h => (by cases h)
  acked_le := fun _ _ => le_rfl
  acked_term := fun _ _ h => absurd h (lt_irrefl 0)
  held := fun _ _ _ h => (by
    obtain ⟨k, e, -, -, hk, -⟩ := h
    cases hk)
  cast := fun _ _ _ _ _ _ _ h => (by cases h)

theorem Acked.isPrefix (h : Acked termOf t p T X) : X <+: t.canon T := by
  obtain ⟨k, e, -, -, -, rfl⟩ := h
  exact List.take_prefix _ _

/-- What was acknowledged ends with an entry of its term. -/
theorem Acked.last (h : Acked termOf t p T X) : ∃ e ∈ X, termOf e = T := by
  obtain ⟨k, e, he, hterm, -, rfl⟩ := h
  refine ⟨e, ?_, hterm⟩
  rw [take_succ_eq_append he]
  exact List.mem_append_right _ (List.mem_singleton_self e)

namespace Inv

variable (hI : Inv A termOf t)

include hI

theorem canon_le {e : ε} (he : e ∈ t.canon T) : termOf e ≤ T := by
  obtain ⟨l, hl, he⟩ := lead_of_canon he
  exact (hI.lead T l hl).log_le e he

/-- The terms of entries have leaders. -/
theorem pos_of_mem_log {e : ε} (he : e ∈ t.log p) : 0 < termOf e := by
  obtain ⟨i, hi⟩ := List.mem_iff_getElem?.1 he
  have hpre := hI.log_grounded p i e hi
  rw [take_succ_eq_append hi] at hpre
  obtain ⟨l, hl, -⟩ := lead_of_canon
    (hpre.subset (List.mem_append_right _ (List.mem_singleton_self e)))
  exact (hI.lead _ l hl).pos

theorem acked_of_term (h : Acked termOf t p T X) : T ≤ t.term p := by
  obtain ⟨k, e, -, -, hk, -⟩ := h
  exact hI.acked_term p T (by omega)

/-! ### Leaders are complete -/

/-- A log that is up to date with one that contains `X` contains `X`, if the leaders of later terms
start with `X`. -/
theorem isPrefix_of_upToDate {C L : List ε} (hX : X <+: t.canon T) (hlast : ∃ e ∈ X, termOf e = T)
    (hL : Grounded termOf t.canon L) (hC : Grounded termOf t.canon C) (hlt : ∀ e ∈ C, termOf e < T')
    (hXL : X <+: L) (hup : UpToDate termOf C L) (hpassed : Passed t T T' X) : X <+: C := by
  obtain ⟨e, heX, he⟩ := hlast
  obtain ⟨last, hlast⟩ : ∃ last, L.getLast? = some last := by
    cases hL : L.getLast? with
    | none =>
        rw [List.getLast?_eq_none_iff.1 hL, List.prefix_nil] at hXL
        subst hXL
        cases heX
    | some last => exact ⟨last, rfl⟩
  obtain ⟨last', hlast', hterm⟩ := hup last hlast
  have hwhole : ∀ {K : List ε} {x : ε}, Grounded termOf t.canon K → K.getLast? = some x →
      K <+: t.canon (termOf x) := by
    intro K x hK hx
    rw [List.getLast?_eq_getElem?] at hx
    have hlen := (List.getElem?_eq_some_iff.1 hx).1
    have htake := hK _ _ hx
    rwa [List.take_of_length_le (by omega)] at htake
  have hLcanon := hwhole hL hlast
  have hCcanon := hwhole hC hlast'
  have hTL : T ≤ termOf last := by
    rw [← he]
    exact hI.canon_le ((hXL.trans hLcanon).subset heX)
  have hTC : T ≤ termOf last' := by omega
  rcases hTC.lt_or_eq with hnew | hsame
  · -- the log ends in a later term, whose leader has all of `X`
    obtain ⟨l, hl, -⟩ := lead_of_canon (hCcanon.subset (List.mem_of_getLast? hlast'))
    have hstart := hpassed _ l hl hnew (hlt _ (List.mem_of_getLast? hlast'))
    have hXl : X <+: t.canon (termOf last') := by
      rw [canon_of_lead hl]
      exact hstart.trans (hI.lead _ l hl).start
    rcases List.prefix_or_prefix_of_prefix hXl hCcanon with h | h
    · exact h
    · have hle := hI.canon_le (hX.subset (h.subset (List.mem_of_getLast? hlast')))
      omega
  · -- both end in the term of `X`, and the log is not shorter
    obtain ⟨-, hlen⟩ := hterm.resolve_left (by omega)
    rw [← hsame] at hCcanon
    exact List.prefix_of_prefix_length_le hX hCcanon (hXL.length_le.trans hlen)

end Inv

/-! ### Chosen logs -/

/-- A quorum has acknowledged `X` in the term `T`, and it ends with an entry of this term. -/
def Chosen (A : Quorums ν) (termOf : ε → ℕ) (t : State ν ε) (T : ℕ) (X : List ε) : Prop :=
  ∃ Q, A.IsQuorum Q ∧ ∀ p ∈ Q, Acked termOf t p T X

/-- `X` is part of what was chosen up to the term `T`. -/
def Committed (A : Quorums ν) (termOf : ε → ℕ) (t : State ν ε) (T : ℕ) (X : List ε) : Prop :=
  X ≠ [] → ∃ T₀ X₀, T₀ ≤ T ∧ Chosen A termOf t T₀ X₀ ∧ X <+: X₀

theorem Chosen.exists_acked (h : Chosen A termOf t T X) : ∃ p, Acked termOf t p T X := by
  obtain ⟨Q, hQ, hacked⟩ := h
  obtain ⟨p, hp, -⟩ := A.inter hQ hQ
  exact ⟨p, hacked p hp⟩

theorem Chosen.isPrefix (h : Chosen A termOf t T X) : X <+: t.canon T := by
  obtain ⟨p, hp⟩ := h.exists_acked
  exact hp.isPrefix

/-- **Leaders start with all that was chosen before.** -/
theorem Inv.complete (hI : Inv A termOf t) (hX : Chosen A termOf t T X) :
    ∀ T' l, t.lead T' = some l → T < T' → X <+: l.start := by
  intro T'
  induction T' using Nat.strong_induction_on with
  | _ T' ih =>
      intro l hl hlt
      obtain ⟨Q, hQ, hacked⟩ := hX
      have hlead := hI.lead T' l hl
      -- one of the electors has acknowledged `X`
      obtain ⟨p, hpQ, hp⟩ := A.inter hQ hlead.quorum
      obtain ⟨L, hballot, hup⟩ := hlead.elected p hp
      -- the leaders in between start with `X` by induction
      have hpassed : Passed t T T' X := fun T₁ l₁ hl₁ h h' => ih T₁ h' l₁ hl₁ h
      have hXL : X <+: L := by
        refine hI.cast p T X T' _ L (hacked p hpQ) hballot hlt (fun l' hl' => ?_) hpassed
        obtain rfl := Option.some.inj (hl.symm.trans hl')
        exact hp
      exact hI.isPrefix_of_upToDate (hacked p hpQ).isPrefix (hacked p hpQ).last
        (hI.ballot_grounded p T' _ L hballot) (hlead.grounded.of_isPrefix hlead.start)
        hlead.start_lt hXL hup hpassed

/-- What is chosen is in the logs of the leaders from then on. -/
theorem Inv.isPrefix_canon (hI : Inv A termOf t) (hX : Chosen A termOf t T X) (hT : T ≤ T')
    (hl : t.lead T' = some l) : X <+: t.canon T' := by
  rcases hT.lt_or_eq with hlt | rfl
  · rw [canon_of_lead hl]
    exact (hI.complete hX T' l hl hlt).trans (hI.lead T' l hl).start
  · exact hX.isPrefix

/-- **Chosen logs are prefixes of each other.** -/
theorem Inv.comparable (hI : Inv A termOf t) (hX : Chosen A termOf t T X)
    (hY : Chosen A termOf t T' Y) : X <+: Y ∨ Y <+: X := by
  have hlead : ∀ {T X}, Chosen A termOf t T X → ∃ l, t.lead T = some l := by
    intro T X hX
    obtain ⟨p, hp⟩ := hX.exists_acked
    obtain ⟨e, he, -⟩ := hp.last
    obtain ⟨l, hl, -⟩ := lead_of_canon (hp.isPrefix.subset he)
    exact ⟨l, hl⟩
  rcases le_total T T' with h | h
  · obtain ⟨l, hl⟩ := hlead hY
    exact List.prefix_or_prefix_of_prefix (hI.isPrefix_canon hX h hl) hY.isPrefix
  · obtain ⟨l, hl⟩ := hlead hX
    exact List.prefix_or_prefix_of_prefix hX.isPrefix (hI.isPrefix_canon hY h hl)

/-- Committed logs are prefixes of each other. -/
theorem Inv.committed_comparable (hI : Inv A termOf t) (hX : Committed A termOf t T X)
    (hY : Committed A termOf t T' Y) : X <+: Y ∨ Y <+: X := by
  by_cases hXnil : X = []
  · exact .inl (hXnil ▸ List.nil_prefix)
  · by_cases hYnil : Y = []
    · exact .inr (hYnil ▸ List.nil_prefix)
    · obtain ⟨T₀, X₀, -, hX₀, hXX₀⟩ := hX hXnil
      obtain ⟨T₁, Y₀, -, hY₀, hYY₀⟩ := hY hYnil
      rcases hI.comparable hX₀ hY₀ with h | h
      · exact List.prefix_or_prefix_of_prefix (hXX₀.trans h) hYY₀
      · exact List.prefix_or_prefix_of_prefix hXX₀ (hYY₀.trans h)

end TermConsensus
