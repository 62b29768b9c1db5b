/-
**The moves of `DistSync/TermConsensus.lean` preserve its invariant.**

What a move adds to the acknowledgements of a node is of its current term, in which it casts no
further ballot that could count.  What it removes from a log is not in the log of the leader whose
entries the node accepts, so it was not acknowledged before either, as long as the leaders in
between start with what was.

Main definitions:

* `TermConsensus.Reaches` — one history becomes another by moves of the nodes.

Main results:

* `TermConsensus.Inv.move` — **the moves preserve the invariant**;
* `TermConsensus.Reaches.inv` — so it holds of every history;
* `TermConsensus.Chosen.extends` — what is chosen stays chosen;
* `TermConsensus.Inv.overlay_committed` — accepting does not lose what is committed.
-/

import DistSync.TermConsensus
import Mathlib.Logic.Relation

set_option relaxedAutoImplicit false
set_option autoImplicit false

namespace TermConsensus

open TermLog

variable {ν ε : Type*} {A : Quorums ν} {termOf : ε → ℕ} {t t' : State ν ε} {n p : ν} {T T' k : ℕ}
  {l l' : Lead ν ε} {X M : List ε} {e : ε}

/-! ### What was acknowledged before -/

theorem Passed.of_extends (h : Passed t' T T' X) (hE : Extends t t') {T₁ : ℕ} (hT : T₁ ≤ T') :
    Passed t T T₁ X := by
  intro T₂ l hl hlt hlt'
  obtain ⟨l', hl', -, -, hstart, -⟩ := hE.lead T₂ l hl
  rw [← hstart]
  exact h T₂ l' hl' hlt (hlt'.trans_le hT)

theorem Acked.extends (h : Acked termOf t p T X) (hE : Extends t t') : Acked termOf t' p T X := by
  obtain ⟨k, e, he, hterm, hk, rfl⟩ := h
  have hcanon := hE.canon T
  have hlt := (List.getElem?_eq_some_iff.1 he).1
  refine ⟨k, e, getElem?_of_isPrefix hcanon he, hterm, hk.trans_le (hE.acked p T), ?_⟩
  refine take_eq_of_isPrefix ((List.take_prefix _ _).trans hcanon) (List.take_prefix _ _) hlt ?_
  exact (Nat.succ_le_of_lt hlt).trans hcanon.length_le

/-- What is chosen stays chosen. -/
theorem Chosen.extends (h : Chosen A termOf t T X) (hE : Extends t t') :
    Chosen A termOf t' T X := by
  obtain ⟨Q, hQ, hacked⟩ := h
  exact ⟨Q, hQ, fun p hp => (hacked p hp).extends hE⟩

theorem Committed.extends (h : Committed A termOf t T X) (hE : Extends t t') (hT : T ≤ T') :
    Committed A termOf t' T' X := by
  intro hX
  obtain ⟨T₀, X₀, hT₀, hX₀, hpre⟩ := h hX
  exact ⟨T₀, X₀, hT₀.trans hT, hX₀.extends hE, hpre⟩

/-- What is committed is in the logs of the leaders from then on. -/
theorem Inv.committed_canon (hI : Inv A termOf t) (hX : Committed A termOf t T X)
    (hl : t.lead T = some l) : X <+: l.log := by
  by_cases hnil : X = []
  · exact hnil ▸ List.nil_prefix
  · obtain ⟨T₀, X₀, hT, hX₀, hpre⟩ := hX hnil
    have hcanon := hI.isPrefix_canon hX₀ hT hl
    rw [canon_of_lead hl] at hcanon
    exact hpre.trans hcanon

/-- **Accepting does not lose what is committed.** -/
theorem Inv.overlay_committed (hI : Inv A termOf t) (hX : Committed A termOf t T X)
    (hl : t.lead T = some l) (hM : M <+: l.log) {log : List ε} (hlog : X <+: log) :
    X <+: overlay log M :=
  overlay_keeps hlog (hI.committed_canon hX hl) hM

/-- Longer logs of leaders do not change what was acknowledged before. -/
theorem Inv.acked_of_lt (hI : Inv A termOf t) (hE : Extends t t')
    (he : (t'.canon T)[k]? = some e) (hterm : termOf e = T) (hk : k < t.acked p T) :
    Acked termOf t p T ((t'.canon T).take (k + 1)) := by
  have hlt : k < (t.canon T).length := hk.trans_le (hI.acked_le p T)
  have hcanon := hE.canon T
  have hsame : (t.canon T)[k]? = some e := by
    rw [List.getElem?_eq_getElem hlt, ← he]
    exact (getElem?_of_isPrefix hcanon (List.getElem?_eq_getElem hlt)).symm
  refine ⟨k, e, hsame, hterm, hk, ?_⟩
  refine take_eq_of_isPrefix (List.take_prefix _ _) ((List.take_prefix _ _).trans hcanon) ?_ hlt
  exact (Nat.succ_le_of_lt hlt).trans hcanon.length_le

/-! ### What all moves have in common -/

/-- A leader whose log does not change. -/
theorem LeadInv.extends (h : LeadInv A termOf t T l) (hE : Extends t t')
    (hown : t'.term l.leader = T → t'.log l.leader = t.log l.leader) : LeadInv A termOf t' T l where
  pos := h.pos
  term := h.term.trans (hE.term _)
  quorum := h.quorum
  elected := fun p hp =>
    let ⟨L, hballot, hup⟩ := h.elected p hp
    ⟨L, hE.ballot p T _ hballot, hup⟩
  start := h.start
  start_lt := h.start_lt
  log_le := h.log_le
  own := by
    intro hterm
    rw [hown hterm]
    exact h.own (le_antisymm (hterm ▸ hE.term _) h.term)
  grounded := h.grounded.mono hE.canon
  acked := h.acked.trans (hE.acked _ _)

/-- A move keeps the invariant when the logs keep what the nodes have acknowledged, and what is new
among it, of the current term, is in the log of its node. -/
theorem Inv.advance (hI : Inv A termOf t) (hE : Extends t t')
    (hballot_le : ∀ p T b, t'.ballot p T = some b → T ≤ t'.term p)
    (hlead : ∀ T l, t'.lead T = some l → LeadInv A termOf t' T l)
    (hlog : ∀ p, Grounded termOf t'.canon (t'.log p) ∧ ∀ e ∈ t'.log p, termOf e ≤ t'.term p)
    (hnew : ∀ p T k, k < t'.acked p T → k < t.acked p T ∨
      T = t'.term p ∧ k < (t'.canon T).length ∧ (t'.canon T).take (k + 1) <+: t'.log p)
    (hkeep : ∀ p T X, Acked termOf t p T X → Passed t' T (t'.term p + 1) X → X <+: t.log p →
      X <+: t'.log p)
    (hballot : ∀ p T c L, t'.ballot p T = some (c, L) → t.ballot p T = some (c, L) ∨
      t.ballot p T = none ∧ t.term p ≤ T ∧ L = t.log p ∧ t'.lead T = t.lead T) :
    Inv A termOf t' := by
  have hacked : ∀ p T X, Acked termOf t' p T X →
      Acked termOf t p T X ∨ T = t'.term p ∧ X <+: t'.log p := by
    rintro p T X ⟨k, e, he, hterm, hk, rfl⟩
    rcases hnew p T k hk with hold | ⟨hT, -, hpre⟩
    · exact .inl (hI.acked_of_lt hE he hterm hold)
    · exact .inr ⟨hT, hpre⟩
  have hheld : ∀ p T X, Acked termOf t p T X → Passed t T (t.term p + 1) X → X <+: t.log p :=
    hI.held
  refine ⟨hballot_le, hlead, fun p => (hlog p).1, fun p => (hlog p).2, fun p T c L hb => ?_,
    fun p T => ?_, fun p T hpos => ?_, fun p T X hX hpassed => ?_,
    fun p T X T' c L hX hb hlt helected hpassed => ?_⟩
  · rcases hballot p T c L hb with hold | ⟨-, -, rfl, -⟩
    · exact (hI.ballot_grounded p T c L hold).mono hE.canon
    · exact (hI.log_grounded p).mono hE.canon
  · refine le_of_forall_lt fun k hk => ?_
    rcases hnew p T k hk with hold | ⟨-, hlt, -⟩
    · exact hold.trans_le ((hI.acked_le p T).trans (hE.canon T).length_le)
    · exact hlt
  · rcases hnew p T 0 hpos with hold | ⟨hT, -, -⟩
    · exact (hI.acked_term p T hold).trans (hE.term p)
    · exact hT.le
  · rcases hacked p T X hX with hold | ⟨-, hpre⟩
    · exact hkeep p T X hold hpassed (hheld p T X hold
        (hpassed.of_extends hE (Nat.succ_le_succ (hE.term p))))
    · exact hpre
  · rcases hacked p T X hX with hold | ⟨hT, -⟩
    · rcases hballot p T' c L hb with hb' | ⟨hfree, hterm, rfl, hsame⟩
      · refine hI.cast p T X T' c L hold hb' hlt (fun l hl => ?_) (hpassed.of_extends hE le_rfl)
        obtain ⟨l', hl', -, hel, -⟩ := hE.lead T' l hl
        rw [← hel]
        exact helected l' hl'
      · -- the ballot does not count for a leader that is elected already
        have hnone : t.lead T' = none := by
          cases hl : t.lead T' with
          | none => rfl
          | some l =>
              obtain ⟨L, hcast, -⟩ := (hI.lead T' l hl).elected p (helected l (hsame.trans hl))
              rw [hfree] at hcast
              cases hcast
        refine hheld p T X hold fun T₁ l hl h h' => ?_
        refine hpassed.of_extends hE le_rfl T₁ l hl h (lt_of_le_of_ne (by omega) ?_)
        rintro rfl
        rw [hnone] at hl
        cases hl
    · have hle := hballot_le p T' _ hb
      omega

/-! ### The moves -/

variable [DecidableEq ν]

theorem Inv.adopt (hI : Inv A termOf t) (hterm : t.term p ≤ T) : Inv A termOf (t.adopt p T) := by
  have hmove : Move t A termOf p (t.adopt p T) := .adopt hterm
  have hE := hmove.extends
  refine hI.advance hE (fun q T₁ b hb => (hI.ballot_le q T₁ b hb).trans (hE.term q))
    (fun T₁ l hl => (hI.lead T₁ l hl).extends hE fun _ => rfl)
    (fun q => ⟨hI.log_grounded q, fun e he => (hI.log_le q e he).trans (hE.term q)⟩)
    (fun _ _ _ hk => .inl hk) (fun _ _ _ _ _ h => h) fun _ _ _ _ hb => .inl hb

theorem Inv.ballot (hI : Inv A termOf t) {c : ν} (hterm : t.term p ≤ T)
    (hfree : t.ballot p T = none) : Inv A termOf (t.cast p T c) := by
  have hmove : Move t A termOf p (t.cast p T c) := .cast hterm hfree
  have hE := hmove.extends
  have hballot : ∀ q T₁ b, (t.cast p T c).ballot q T₁ = some b →
      t.ballot q T₁ = some b ∨ q = p ∧ T₁ = T ∧ b = (c, t.log p) := by
    intro q T₁ b hb
    simp only [State.cast] at hb
    split at hb
    · next heq => exact .inr ⟨heq.1, heq.2, (Option.some.inj hb).symm⟩
    · exact .inl hb
  refine hI.advance hE (fun q T₁ b hb => ?_)
    (fun T₁ l hl => (hI.lead T₁ l hl).extends hE fun _ => rfl)
    (fun q => ⟨hI.log_grounded q, fun e he => (hI.log_le q e he).trans (hE.term q)⟩)
    (fun _ _ _ hk => .inl hk) (fun _ _ _ _ _ h => h) fun q T₁ c' L hb => ?_
  · rcases hballot q T₁ b hb with hold | ⟨rfl, rfl, -⟩
    · exact (hI.ballot_le q T₁ b hold).trans (hE.term q)
    · simp [State.cast, State.adopt]
  · rcases hballot q T₁ _ hb with hold | ⟨rfl, rfl, hnew⟩
    · exact .inl hold
    · cases hnew
      exact .inr ⟨hfree, hterm, rfl, rfl⟩

theorem Inv.win (hI : Inv A termOf t) {c : ν} {Q : Finset ν} (hpos : 0 < t.term c)
    (hfree : t.lead (t.term c) = none) (hQ : A.IsQuorum Q)
    (hvotes : ∀ p ∈ Q, ∃ L, t.ballot p (t.term c) = some (c, L) ∧ UpToDate termOf (t.log c) L) :
    Inv A termOf (t.win c Q) := by
  have hE : Extends t (t.win c Q) := (Move.win hpos hfree hQ hvotes).extends
  have hcanon : (t.win c Q).canon (t.term c) = t.log c :=
    canon_of_lead (l := ⟨c, Q, t.log c, t.log c⟩) (Function.update_self _ _ _)
  -- without a leader there are no entries of the term yet
  have hlt : ∀ e ∈ t.log c, termOf e < t.term c := by
    intro e he
    refine lt_of_le_of_ne (hI.log_le c e he) fun hterm => ?_
    obtain ⟨i, hi⟩ := List.mem_iff_getElem?.1 he
    have hpre := hI.log_grounded c i e hi
    rw [hterm, canon_of_none hfree, List.prefix_nil, take_succ_eq_append hi] at hpre
    simp at hpre
  refine hI.advance hE hI.ballot_le (fun T₁ l hl => ?_)
    (fun q => ⟨(hI.log_grounded q).mono hE.canon, hI.log_le q⟩) (fun q T₁ k hk => ?_)
    (fun _ _ _ _ _ h => h) fun _ _ _ _ hb => .inl hb
  · by_cases hT : T₁ = t.term c
    · subst hT
      simp only [State.win, Function.update_self, Option.some.injEq] at hl
      subst hl
      exact ⟨hpos, le_rfl, hQ, hvotes, List.prefix_refl _, hlt, hI.log_le c, fun _ => rfl,
        (hI.log_grounded c).mono hE.canon, le_ack⟩
    · simp only [State.win, Function.update_of_ne hT] at hl
      exact (hI.lead T₁ l hl).extends hE fun _ => rfl
  · rcases lt_ack.1 hk with hold | ⟨rfl, rfl, hlen⟩
    · exact .inl hold
    · rw [hcanon]
      exact .inr ⟨rfl, hlen, List.take_prefix _ _⟩

theorem Inv.append (hI : Inv A termOf t) (hlead : t.lead (t.term n) = some l) (hn : l.leader = n)
    (he : termOf e = t.term n) : Inv A termOf (t.append n l e) := by
  -- the entry extends the log of the leader, in the history and at its node
  have hE : Extends t (t.append n l e) := (Move.append (A := A) hlead hn he).extends
  have hL := hI.lead _ l hlead
  have hown : t.log n = l.log := hn ▸ hL.own (by rw [hn])
  have hcanon : (t.append n l e).canon (t.term n) = l.log ++ [e] :=
    canon_of_lead (l := { l with log := l.log ++ [e] }) (Function.update_self _ _ _)
  have hlog : (t.append n l e).log n = l.log ++ [e] := by
    simp only [State.append, Function.update_self, hown]
  have hother : ∀ q, q ≠ n → (t.append n l e).log q = t.log q := fun q hq =>
    Function.update_of_ne hq _ _
  have hgrounded : Grounded termOf (t.append n l e).canon (l.log ++ [e]) :=
    hL.grounded.snoc hE.canon (by rw [he, hcanon])
  have hle : ∀ x ∈ l.log ++ [e], termOf x ≤ t.term n := by
    intro x hx
    rcases List.mem_append.1 hx with hx | hx
    · exact hL.log_le x hx
    · rw [List.mem_singleton.1 hx, he]
  refine hI.advance hE hI.ballot_le (fun T₁ l₁ hl₁ => ?_) (fun q => ?_) (fun q T₁ k hk => ?_)
    (fun q T₁ X _ _ hX => ?_) fun _ _ _ _ hb => .inl hb
  · by_cases hT : T₁ = t.term n
    · subst hT
      simp only [State.append, Function.update_self, Option.some.injEq] at hl₁
      subst hl₁
      refine ⟨hL.pos, hL.term, hL.quorum, hL.elected, hL.start.trans (List.prefix_append _ _),
        hL.start_lt, hle, fun _ => ?_, hgrounded, ?_⟩
      · rw [hn]
        exact hlog
      · rw [List.length_append, List.length_singleton, hn, ← hown]
        exact le_ack
    · simp only [State.append, Function.update_of_ne hT] at hl₁
      refine (hI.lead T₁ l₁ hl₁).extends hE fun hterm => hother _ ?_
      rintro rfl
      exact hT hterm.symm
  · by_cases hq : q = n
    · subst hq
      rw [hlog]
      exact ⟨hgrounded, hle⟩
    · rw [hother q hq]
      exact ⟨(hI.log_grounded q).mono hE.canon, hI.log_le q⟩
  · rcases lt_ack.1 hk with hold | ⟨rfl, rfl, hlen⟩
    · exact .inl hold
    · rw [hcanon, hlog]
      refine .inr ⟨rfl, ?_, List.take_prefix _ _⟩
      rw [List.length_append, List.length_singleton, ← hown]
      exact hlen
  · by_cases hq : q = n
    · subst hq
      rw [hlog, ← hown]
      exact hX.trans (List.prefix_append _ _)
    · rwa [hother q hq]

theorem Inv.accept (hI : Inv A termOf t) (hterm : t.term p ≤ T) (hlead : t.lead T = some l)
    (hp : p ≠ l.leader) (hM : M <+: l.log) : Inv A termOf (t.accept p T M) := by
  have hmove : Move t A termOf p (t.accept p T M) := .accept hterm hlead hp hM
  -- the log of `p` becomes `M`, unless it is longer and starts with it
  have hE := hmove.extends
  have hL := hI.lead T l hlead
  have hnewterm : (t.accept p T M).term p = T := by simp [State.accept, State.ack, State.adopt]
  have hlog : (t.accept p T M).log p = overlay (t.log p) M := by
    simp only [State.accept, Function.update_self]
  have hother : ∀ q, q ≠ p → (t.accept p T M).log q = t.log q := fun q hq =>
    Function.update_of_ne hq _ _
  have hcanon : (t.accept p T M).canon T = l.log := canon_of_lead hlead
  refine hI.advance hE (fun q T₁ b hb => (hI.ballot_le q T₁ b hb).trans (hE.term q))
    (fun T₁ l₁ hl₁ => ?_) (fun q => ?_) (fun q T₁ k hk => ?_) (fun q T₁ X hX hpassed hpre => ?_)
    fun _ _ _ _ hb => .inl hb
  · refine (hI.lead T₁ l₁ hl₁).extends hE fun hterm₁ => hother _ ?_
    rintro rfl
    rw [hnewterm] at hterm₁
    subst hterm₁
    exact hp (by rw [Option.some.inj (hlead.symm.trans hl₁)])
  · by_cases hq : q = p
    · subst hq
      rw [hlog, hnewterm]
      refine ⟨((hI.log_grounded q).mono hE.canon).overlay
        ((hL.grounded.of_isPrefix hM).mono hE.canon), fun e he => ?_⟩
      by_cases hpre : M <+: t.log q
      · rw [overlay_of_isPrefix hpre] at he
        exact (hI.log_le q e he).trans hterm
      · rw [overlay_of_not_isPrefix hpre] at he
        exact hL.log_le e (hM.subset he)
    · rw [hother q hq]
      exact ⟨(hI.log_grounded q).mono hE.canon,
        fun e he => (hI.log_le q e he).trans (hE.term q)⟩
  · rcases lt_ack.1 hk with hold | ⟨rfl, rfl, hlen⟩
    · exact .inl hold
    · refine .inr ⟨hnewterm.symm, ?_, ?_⟩
      · rw [hcanon]
        exact hlen.trans_le hM.length_le
      · rw [hcanon, hlog]
        have htake : l.log.take (k + 1) <+: M :=
          List.prefix_of_prefix_length_le (List.take_prefix _ _) hM (by
            rw [List.length_take]
            omega)
        exact htake.trans prefix_overlay
  · by_cases hq : q = p
    · subst hq
      rw [hlog]
      rw [hnewterm] at hpassed
      -- `X` is in the log of the leader of `T`, so taking a part of this log does not remove it
      refine overlay_keeps hpre ?_ hM
      rcases ((hI.acked_of_term hX).trans hterm).lt_or_eq with hlt | rfl
      · exact (hpassed T l hlead hlt (Nat.lt_succ_self T)).trans hL.start
      · rw [← canon_of_lead hlead]
        exact hX.isPrefix
    · rwa [hother q hq]

/-- **The moves preserve the invariant.** -/
theorem Inv.move (hI : Inv A termOf t) (h : Move t A termOf n t') : Inv A termOf t' := by
  cases h with
  | adopt hterm => exact hI.adopt hterm
  | cast hterm hfree => exact hI.ballot hterm hfree
  | win hpos hfree hQ hvotes => exact hI.win hpos hfree hQ hvotes
  | append hlead hn he => exact hI.append hlead hn he
  | accept hterm hlead hp hM => exact hI.accept hterm hlead hp hM

/-- Any number of moves of any nodes. -/
def Reaches (A : Quorums ν) (termOf : ε → ℕ) : State ν ε → State ν ε → Prop :=
  Relation.ReflTransGen fun t t' => ∃ n, Move t A termOf n t'

theorem Inv.reaches (hI : Inv A termOf t) (h : Reaches A termOf t t') : Inv A termOf t' := by
  induction h with
  | refl => exact hI
  | tail _ hmove ih =>
      obtain ⟨n, hmove⟩ := hmove
      exact ih.move hmove

/-- **The invariant holds of every history.** -/
theorem Reaches.inv (h : Reaches A termOf initial t) : Inv A termOf t :=
  inv_initial.reaches h

end TermConsensus
