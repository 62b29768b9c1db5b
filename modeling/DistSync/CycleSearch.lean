/-
**Finding a cycle of a directed graph by depth-first search.**

A graph is given by a function `next` from a vertex to the vertices it has edges to, in some order.
The search goes depth first through all vertices of a list and keeps the set of the visited ones,
the path from the root to the current vertex, and for each vertex on it the one it was reached from.
An edge to a vertex on the path closes a cycle, which is then read off by walking back.

The search is correct for every graph and every order, and the reason is the invariant
`CycleSearch.Valid`: the path is a path of the graph, and below a vertex that was left no walk of
the graph goes on for ever.  The recursion is bounded by a fuel, and the number of vertices is
enough.

Main definitions:

* `CycleSearch.dfs`, `CycleSearch.findCycle` — the search;
* `CycleSearch.IsCycle` — the form in which a cycle is returned;
* `CycleSearch.Valid` — the invariant of the search.

Main results:

* `CycleSearch.dfs_outcome` — what the search from one vertex achieves;
* `CycleSearch.findCycle_spec` — **it ends, with a cycle or with a well-founded graph**;
* `CycleSearch.findCycle_ne_nil_iff` — a cycle is found if and only if there is one;
* `CycleSearch.findCycle_eq_nil_iff` — nothing is found if and only if no set of vertices is closed
  under going on.
-/

import Mathlib.Data.Finset.Card
import Mathlib.Data.List.Chain
import Mathlib.Logic.Function.Basic
import Mathlib.Order.WellFounded

set_option relaxedAutoImplicit false
set_option autoImplicit false

namespace CycleSearch

variable {κ : Type*} [DecidableEq κ]

/-! ### The search -/

/-- The variables of the search.  The path is kept twice, as a list with the current vertex first
and as a set. -/
structure Search (κ : Type*) where
  visited : Finset κ
  stack : List κ
  inStack : Finset κ
  parent : κ → Option κ

/-- The search before the first vertex. -/
def Search.start : Search κ := ⟨∅, [], ∅, fun _ => none⟩

/-- A vertex is put on the path. -/
def Search.enter (s : Search κ) (node : κ) : Search κ :=
  { s with
    visited := insert node s.visited
    stack := node :: s.stack
    inStack := insert node s.inStack }

/-- The current vertex is taken off the path. -/
def Search.leave (s : Search κ) (node : κ) : Search κ :=
  { s with
    stack := s.stack.tail
    inStack := s.inStack.erase node }

/-- A vertex is going to be reached from another one. -/
def Search.reach (s : Search κ) (neighbor node : κ) : Search κ :=
  { s with parent := Function.update s.parent neighbor (some node) }

/-- The vertices from `cur` back to `neighbor`, without the latter; a vertex that was not reached
from another one leads to `neighbor` as well.  `none` when the fuel is used up. -/
def walkBack (parent : κ → Option κ) (neighbor : κ) : ℕ → κ → Option (List κ)
  | 0, _ => none
  | fuel + 1, cur =>
      if cur = neighbor then some []
      else (walkBack parent neighbor fuel ((parent cur).getD neighbor)).map (cur :: ·)

/-- The loop over the neighbours of `node`, where `visit` is the recursive call.  The list is a
cycle, or empty when none was found. -/
def visitAll (visit : κ → Search κ → Option (List κ × Search κ)) (node : κ) :
    List κ → Search κ → Option (List κ × Search κ)
  | [], s => some ([], s.leave node)
  | neighbor :: rest, s =>
      if neighbor ∉ s.visited then
        match visit neighbor (s.reach neighbor node) with
        | none => none
        | some ([], s) => visitAll visit node rest s
        | some (v :: cycle, s) => some (v :: cycle, s)
      else if neighbor ∈ s.inStack then
        (walkBack s.parent neighbor s.stack.length node).map fun path => (neighbor :: path, s)
      else visitAll visit node rest s

/-- The search from a vertex that was not visited. -/
def dfs (next : κ → List κ) : ℕ → κ → Search κ → Option (List κ × Search κ)
  | 0, _, _ => none
  | fuel + 1, node, s => visitAll (dfs next fuel) node (next node) (s.enter node)

/-- The search from each vertex of a list. -/
def searchAll (next : κ → List κ) (fuel : ℕ) : List κ → Search κ → Option (List κ)
  | [], _ => some []
  | node :: nodes, s =>
      if node ∉ s.visited then
        match dfs next fuel node s with
        | none => none
        | some ([], s) => searchAll next fuel nodes s
        | some (v :: cycle, _) => some (v :: cycle)
      else searchAll next fuel nodes s

/-- All vertices of the graph, those of the list and their neighbours. -/
def vertices (next : κ → List κ) (nodes : List κ) : List κ := nodes ++ nodes.flatMap next

/-- **The search for a cycle** in the graph whose vertices with neighbours are in a list. -/
def findCycle (next : κ → List κ) (nodes : List κ) : Option (List κ) :=
  searchAll next (vertices next nodes).length nodes .start

/-! ### Cycles -/

variable {next : κ → List κ} {nodes : List κ}

omit [DecidableEq κ] in
/-- There is an edge from `v` to `w`. -/
def Edge (next : κ → List κ) (v w : κ) : Prop := w ∈ next v

omit [DecidableEq κ] in
/-- The vertices are different, each has an edge to the one before it, and the first one has an
edge to the last. -/
structure IsCycle (E : κ → κ → Prop) (cycle : List κ) : Prop where
  nodup : cycle.Nodup
  chain : cycle.IsChain fun v w => E w v
  closes : ∀ v ∈ cycle.head?, ∀ w ∈ cycle.getLast?, E v w

omit [DecidableEq κ] in
/-- Each vertex of a cycle has an edge to a vertex of the cycle. -/
theorem IsCycle.exists_edge {E : κ → κ → Prop} {cycle : List κ} (h : IsCycle E cycle) {v : κ}
    (hv : v ∈ cycle) : ∃ w ∈ cycle, E v w := by
  obtain ⟨front, back, rfl⟩ := List.append_of_mem hv
  rcases List.eq_nil_or_concat front with rfl | ⟨front, w, rfl⟩
  · have hlast := List.getLast?_eq_some_getLast (List.cons_ne_nil v back)
    exact ⟨_, List.getLast_mem _, h.closes v rfl _ hlast⟩
  · have hchain := h.chain
    rw [List.concat_eq_append, List.append_assoc] at hchain
    have hedge := List.isChain_cons_cons.1 hchain.right_of_append
    exact ⟨w, by simp, hedge.1⟩

omit [DecidableEq κ] in
/-- The first vertex of a cycle reaches itself. -/
theorem IsCycle.transGen {E : κ → κ → Prop} {v : κ} {cycle : List κ} (h : IsCycle E (v :: cycle)) :
    Relation.TransGen E v v := by
  have hlast := List.getLast?_eq_some_getLast (List.cons_ne_nil v cycle)
  have hback : Relation.ReflTransGen (Function.swap E) v _ :=
    List.relationReflTransGen_of_exists_isChain_cons _ h.chain rfl
  exact Relation.TransGen.head' (h.closes v rfl _ hlast) (Relation.reflTransGen_swap.1 hback)

/-! ### The invariant -/

/-- The path has no vertex twice and is a path of the graph, kept in `parent`; and a walk that
starts at a vertex that was left ends. -/
structure Valid (next : κ → List κ) (s : Search κ) : Prop where
  nodup : s.stack.Nodup
  inStack : ∀ v, v ∈ s.inStack ↔ v ∈ s.stack
  visited : ∀ v ∈ s.stack, v ∈ s.visited
  chain : s.stack.IsChain fun child node => s.parent child = some node ∧ Edge next node child
  left : ∀ v ∈ s.visited, v ∉ s.stack → Acc (Function.swap (Edge next)) v

omit [DecidableEq κ] in
theorem valid_start : Valid next Search.start where
  nodup := List.nodup_nil
  inStack := fun v => by simp [Search.start]
  visited := fun v hv => by cases hv
  chain := List.isChain_nil
  left := fun v hv => by simp [Search.start] at hv

variable {s s' : Search κ} {node neighbor : κ} {below : List κ}

/-- Entering a vertex that the last one on the path has an edge to. -/
theorem Valid.enter (h : Valid next s) (hnew : node ∉ s.visited)
    (htop : ∀ top ∈ s.stack.head?, s.parent node = some top ∧ Edge next top node) :
    Valid next (s.enter node) where
  nodup := List.nodup_cons.2 ⟨fun hmem => hnew (h.visited node hmem), h.nodup⟩
  inStack := fun v => by simp [Search.enter, h.inStack]
  visited := fun v hv => by
    rcases List.mem_cons.1 hv with rfl | hv
    · exact Finset.mem_insert_self _ _
    · exact Finset.mem_insert_of_mem (h.visited v hv)
  chain := List.isChain_cons.2 ⟨htop, h.chain⟩
  left := fun v hv hnot => by
    rw [Search.enter, List.mem_cons, not_or] at hnot
    exact h.left v (Finset.mem_of_mem_insert_of_ne hv hnot.1) hnot.2

/-- Leaving a vertex when all its neighbours have been left. -/
theorem Valid.leave (h : Valid next s) (hstack : s.stack = node :: below)
    (hall : ∀ w ∈ next node, w ∈ s.visited ∧ w ∉ s.stack) : Valid next (s.leave node) where
  nodup := h.nodup.tail
  inStack := fun v => by
    have hnodup := h.nodup
    rw [hstack, List.nodup_cons] at hnodup
    simp only [Search.leave, Finset.mem_erase, h.inStack, hstack, List.mem_cons, List.tail_cons]
    constructor
    · rintro ⟨hne, rfl | hv⟩
      · exact absurd rfl hne
      · exact hv
    · intro hv
      exact ⟨fun heq => hnodup.1 (heq ▸ hv), .inr hv⟩
  visited := fun v hv => h.visited v (List.mem_of_mem_tail hv)
  chain := h.chain.tail
  left := fun v hv hnot => by
    by_cases hvn : v = node
    · subst hvn
      exact Acc.intro _ fun w hw => h.left w (hall w hw).1 (hall w hw).2
    · refine h.left v hv ?_
      rw [hstack, List.mem_cons, not_or]
      refine ⟨hvn, ?_⟩
      rwa [Search.leave, hstack] at hnot

/-- Writing down how a vertex is going to be reached. -/
theorem Valid.reach (h : Valid next s) (hnew : neighbor ∉ s.visited) (node : κ) :
    Valid next (s.reach neighbor node) where
  nodup := h.nodup
  inStack := h.inStack
  visited := h.visited
  chain := by
    refine List.IsChain.imp_of_mem_imp (fun child parent hchild _ hstep => ?_) h.chain
    have hne : child ≠ neighbor := fun heq => hnew (heq ▸ h.visited child hchild)
    exact ⟨(Function.update_of_ne hne _ _).trans hstep.1, hstep.2⟩
  left := h.left

/-! ### Walking back -/

/-- Along a path that `parent` keeps, walking back gives the part before its end. -/
theorem walkBack_eq {parent : κ → Option κ} {back : List κ} :
    ∀ {front : List κ} {fuel : ℕ} {cur : κ}, (front ++ neighbor :: back).head? = some cur →
      (front ++ neighbor :: back).Nodup →
      (front ++ neighbor :: back).IsChain (fun child node => parent child = some node) →
      front.length < fuel → walkBack parent neighbor fuel cur = some front := by
  intro front
  induction front with
  | nil =>
      intro fuel cur hcur _ _ hfuel
      obtain ⟨fuel, rfl⟩ : ∃ k, fuel = k + 1 := ⟨fuel - 1, by simp at hfuel; omega⟩
      rw [walkBack, if_pos (Option.some.inj hcur).symm]
  | cons v front ih =>
      intro fuel cur hcur hnodup hchain hfuel
      rw [List.length_cons] at hfuel
      obtain ⟨fuel, rfl⟩ : ∃ k, fuel = k + 1 := ⟨fuel - 1, by omega⟩
      obtain rfl : v = cur := Option.some.inj hcur
      rw [List.cons_append, List.nodup_cons] at hnodup
      obtain ⟨hhead, htail⟩ := List.isChain_cons.1 hchain
      have hne : v ≠ neighbor := by
        rintro rfl
        exact hnodup.1 (by simp)
      have hnext : (front ++ neighbor :: back).head? =
          some ((front ++ neighbor :: back).head (by simp)) := List.head?_eq_some_head _
      rw [walkBack, if_neg hne, hhead _ hnext, Option.getD_some,
        ih hnext hnodup.2 htail (by omega), Option.map_some]

/-- **An edge back to the path closes a cycle.** -/
theorem Valid.closes (h : Valid next s) (hstack : s.stack = node :: below)
    (hedge : neighbor ∈ next node) (hin : neighbor ∈ s.inStack) :
    ∃ path, walkBack s.parent neighbor s.stack.length node = some path ∧
      IsCycle (Edge next) (neighbor :: path) := by
  obtain ⟨front, back, hsplit⟩ := List.append_of_mem ((h.inStack neighbor).1 hin)
  have hnodup := h.nodup
  have hchain := h.chain
  rw [hsplit] at hnodup hchain
  have hhead : (front ++ neighbor :: back).head? = some node := by
    rw [← hsplit, hstack]
    rfl
  refine ⟨front, walkBack_eq hhead hnodup (hchain.imp fun _ _ hstep => hstep.1) ?_, ?_, ?_, ?_⟩
  · rw [hsplit, List.length_append, List.length_cons]
    omega
  · exact (List.nodup_middle.1 hnodup).sublist ((List.sublist_append_left front back).cons_cons _)
  · refine List.isChain_cons.2 ⟨fun w hw => ?_, hchain.left_of_append.imp fun _ _ hstep => hstep.2⟩
    obtain ⟨front, rfl⟩ := List.head?_eq_some_iff.1 hw
    obtain rfl : w = node := Option.some.inj hhead
    exact hedge
  · rintro v hv w hw
    obtain rfl : neighbor = v := Option.some.inj hv
    rcases List.eq_nil_or_concat front with rfl | ⟨front, w', rfl⟩
    · -- a self-loop
      obtain rfl : neighbor = w := Option.some.inj hw
      obtain rfl : neighbor = node := Option.some.inj hhead
      exact hedge
    · rw [List.concat_eq_append, ← List.cons_append, List.getLast?_concat] at hw
      obtain rfl : w' = w := Option.some.inj hw
      rw [List.concat_eq_append, List.append_assoc] at hchain
      exact (List.isChain_cons_cons.1 hchain.right_of_append).1.2

/-! ### What the search achieves -/

/-- The call for `node` has ended: it has found a cycle, or the path is again the one below `node`
and `node` has been visited. -/
def Outcome (next : κ → List κ) (below : List κ) (visited : Finset κ) (node : κ)
    (result : Option (List κ × Search κ)) : Prop :=
  ∃ cycle s', result = some (cycle, s') ∧ (cycle ≠ [] → IsCycle (Edge next) cycle) ∧
    (cycle = [] → Valid next s' ∧ s'.stack = below ∧ visited ⊆ s'.visited ∧ node ∈ s'.visited)

/-- `visit` explores the vertices of `U` when at most `fuel` of them have not been visited. -/
def Explores (next : κ → List κ) (U : Finset κ) (fuel : ℕ)
    (visit : κ → Search κ → Option (List κ × Search κ)) : Prop :=
  ∀ node s, Valid next s → node ∈ U → node ∉ s.visited →
    (∀ top ∈ s.stack.head?, s.parent node = some top ∧ Edge next top node) →
    (U \ s.visited).card ≤ fuel → Outcome next s.stack s.visited node (visit node s)

/-- **The loop over the neighbours**, by induction on those that are left. -/
theorem visitAll_outcome {U : Finset κ} {fuel : ℕ}
    {visit : κ → Search κ → Option (List κ × Search κ)} (hvisit : Explores next U fuel visit)
    (hU : ∀ w ∈ next node, w ∈ U) :
    ∀ {rest : List κ} {s : Search κ}, Valid next s → s.stack = node :: below →
      rest ⊆ next node → (∀ w ∈ next node, w ∈ rest ∨ w ∈ s.visited ∧ w ∉ s.stack) →
      (U \ s.visited).card ≤ fuel →
      Outcome next below s.visited node (visitAll visit node rest s) := by
  intro rest
  induction rest with
  | nil =>
      intro s h hstack _ hdone _
      have hall : ∀ w ∈ next node, w ∈ s.visited ∧ w ∉ s.stack := fun w hw =>
        (hdone w hw).resolve_left List.not_mem_nil
      refine ⟨[], s.leave node, rfl, fun hne => absurd rfl hne, fun _ => ?_⟩
      refine ⟨h.leave hstack hall, ?_, Finset.Subset.refl _, h.visited node ?_⟩
      · rw [Search.leave, hstack, List.tail_cons]
      · rw [hstack]
        exact List.mem_cons_self
  | cons neighbor rest ih =>
      intro s h hstack hrest hdone hcard
      have hedge : neighbor ∈ next node := hrest List.mem_cons_self
      have hrest' : rest ⊆ next node := List.subset_of_cons_subset hrest
      rw [visitAll]
      split
      · next hnew =>
          have hreach := h.reach hnew node
          have htop : ∀ top ∈ (s.reach neighbor node).stack.head?,
              (s.reach neighbor node).parent neighbor = some top ∧ Edge next top neighbor := by
            intro top htop
            rw [Search.reach, hstack] at htop
            obtain rfl : node = top := Option.some.inj htop
            exact ⟨Function.update_self _ _ _, hedge⟩
          obtain ⟨cycle, s', hresult, hcycle, hvalid⟩ :=
            hvisit neighbor _ hreach (hU neighbor hedge) hnew htop hcard
          rw [hresult]
          cases cycle with
          | cons v cycle => exact ⟨_, _, rfl, hcycle, fun heq => by cases heq⟩
          | nil =>
              obtain ⟨hvalid, hstack', hsub, hmem⟩ := hvalid rfl
              rw [Search.reach, hstack] at hstack'
              have hsub' : s.visited ⊆ s'.visited := hsub
              have hdone' : ∀ w ∈ next node, w ∈ rest ∨ w ∈ s'.visited ∧ w ∉ s'.stack := by
                intro w hw
                rcases hdone w hw with hw | ⟨hw, hnot⟩
                · rcases List.mem_cons.1 hw with rfl | hw
                  · refine .inr ⟨hmem, fun hin => hnew (h.visited w ?_)⟩
                    rwa [hstack, ← hstack']
                  · exact .inl hw
                · exact .inr ⟨hsub' hw, by rwa [hstack', ← hstack]⟩
              have hcard' := Finset.card_le_card (Finset.sdiff_subset_sdiff
                (Finset.Subset.refl U) hsub')
              obtain ⟨cycle, s'', hloop, hcycle', hvalid'⟩ :=
                ih hvalid hstack' hrest' hdone' (hcard'.trans hcard)
              refine ⟨cycle, s'', hloop, hcycle', fun heq => ?_⟩
              obtain ⟨hv, hst, hvis, hn⟩ := hvalid' heq
              exact ⟨hv, hst, hsub'.trans hvis, hn⟩
      · next hold =>
          split
          · next hin =>
              obtain ⟨path, hpath, hcycle⟩ := h.closes hstack hedge hin
              rw [hpath]
              exact ⟨_, _, rfl, fun _ => hcycle, fun heq => by cases heq⟩
          · next hout =>
              refine ih h hstack hrest' (fun w hw => ?_) hcard
              rcases hdone w hw with hw | hw
              · rcases List.mem_cons.1 hw with rfl | hw
                · exact .inr ⟨not_not.1 hold, fun hin => hout ((h.inStack w).2 hin)⟩
                · exact .inl hw
              · exact .inr hw

/-- **The search from one vertex**, by induction on the fuel. -/
theorem dfs_outcome {U : Finset κ} (hU : ∀ v ∈ U, ∀ w ∈ next v, w ∈ U) (fuel : ℕ) :
    Explores next U fuel (dfs next fuel) := by
  induction fuel with
  | zero =>
      intro node s _ hnode hnew _ hcard
      have hmem : node ∈ U \ s.visited := Finset.mem_sdiff.2 ⟨hnode, hnew⟩
      rw [Nat.le_zero, Finset.card_eq_zero] at hcard
      rw [hcard] at hmem
      cases hmem
  | succ fuel ih =>
      intro node s h hnode hnew htop hcard
      have henter := h.enter hnew htop
      -- the vertex itself does not count any more
      have hlt : (U \ (s.enter node).visited).card < (U \ s.visited).card := by
        refine Finset.card_lt_card (Finset.ssubset_iff_subset_ne.2 ⟨?_, fun heq => ?_⟩)
        · exact Finset.sdiff_subset_sdiff (Finset.Subset.refl U) (Finset.subset_insert _ _)
        · have hmem : node ∈ U \ s.visited := Finset.mem_sdiff.2 ⟨hnode, hnew⟩
          rw [← heq] at hmem
          exact (Finset.mem_sdiff.1 hmem).2 (Finset.mem_insert_self _ _)
      obtain ⟨cycle, s', hresult, hcycle, hvalid⟩ := visitAll_outcome ih (hU node hnode) henter rfl
        (List.Subset.refl _) (fun w hw => .inl hw) (by omega)
      refine ⟨cycle, s', hresult, hcycle, fun heq => ?_⟩
      obtain ⟨hv, hst, hvis, hn⟩ := hvalid heq
      exact ⟨hv, hst, (Finset.subset_insert _ _).trans hvis, hn⟩

/-- The search from the vertices of a list: a cycle, or all of them have been left. -/
theorem searchAll_spec {U : Finset κ} (hU : ∀ v ∈ U, ∀ w ∈ next v, w ∈ U) {fuel : ℕ}
    (hfuel : U.card ≤ fuel) :
    ∀ {nodes : List κ} {s : Search κ}, Valid next s → s.stack = [] → (∀ v ∈ nodes, v ∈ U) →
      ∃ cycle, searchAll next fuel nodes s = some cycle ∧
        (cycle ≠ [] → IsCycle (Edge next) cycle) ∧
        (cycle = [] → ∀ v, v ∈ s.visited ∨ v ∈ nodes → Acc (Function.swap (Edge next)) v) := by
  intro nodes
  induction nodes with
  | nil =>
      intro s h hstack _
      refine ⟨[], rfl, fun hne => absurd rfl hne, fun _ v hv => h.left v ?_ ?_⟩
      · exact hv.resolve_right List.not_mem_nil
      · rw [hstack]
        exact List.not_mem_nil
  | cons node nodes ih =>
      intro s h hstack hnodes
      have hnodes' := fun v hv => hnodes v (List.mem_cons_of_mem _ hv)
      rw [searchAll]
      split
      · next hnew =>
          have hcard := (Finset.card_le_card (Finset.sdiff_subset (s := U) (t := s.visited))).trans
            hfuel
          obtain ⟨cycle, s', hresult, hcycle, hvalid⟩ :=
            dfs_outcome hU fuel node s h (hnodes node List.mem_cons_self) hnew
              (fun top htop => by rw [hstack] at htop; cases htop) hcard
          rw [hresult]
          cases cycle with
          | cons v cycle => exact ⟨_, rfl, hcycle, fun heq => by cases heq⟩
          | nil =>
              obtain ⟨hvalid, hstack', hsub, hmem⟩ := hvalid rfl
              obtain ⟨cycle, hloop, hcycle', hacc⟩ := ih hvalid (hstack'.trans hstack) hnodes'
              refine ⟨cycle, hloop, hcycle', fun heq v hv => hacc heq v ?_⟩
              rcases hv with hv | hv
              · exact .inl (hsub hv)
              · rcases List.mem_cons.1 hv with rfl | hv
                · exact .inl hmem
                · exact .inr hv
      · next hold =>
          obtain ⟨cycle, hloop, hcycle, hacc⟩ := ih h hstack hnodes'
          refine ⟨cycle, hloop, hcycle, fun heq v hv => hacc heq v ?_⟩
          rcases hv with hv | hv
          · exact .inl hv
          · rcases List.mem_cons.1 hv with rfl | hv
            · exact .inl (not_not.1 hold)
            · exact .inr hv

/-- **The search ends, with a cycle or with a well-founded graph**, when all vertices with
neighbours are in the list. -/
theorem findCycle_spec (hnodes : ∀ v, v ∉ nodes → next v = []) :
    ∃ cycle, findCycle next nodes = some cycle ∧
      (cycle ≠ [] → IsCycle (Edge next) cycle) ∧
      (cycle = [] → WellFounded (Function.swap (Edge next))) := by
  have hU : ∀ v ∈ (vertices next nodes).toFinset, ∀ w ∈ next v,
      w ∈ (vertices next nodes).toFinset := by
    intro v _ w hw
    have hv : v ∈ nodes := by
      by_contra hv
      rw [hnodes v hv] at hw
      cases hw
    rw [List.mem_toFinset, vertices, List.mem_append, List.mem_flatMap]
    exact .inr ⟨v, hv, hw⟩
  obtain ⟨cycle, hresult, hcycle, hacc⟩ := searchAll_spec hU (List.toFinset_card_le _) valid_start
    rfl (fun v hv => List.mem_toFinset.2 (List.mem_append_left _ hv))
  refine ⟨cycle, hresult, hcycle, fun heq => ⟨fun v => ?_⟩⟩
  by_cases hv : v ∈ nodes
  · exact hacc heq v (.inr hv)
  · refine Acc.intro _ fun w hw => ?_
    have hedge : w ∈ next v := hw
    rw [hnodes v hv] at hedge
    cases hedge

/-- **A cycle is found if and only if there is one.** -/
theorem findCycle_ne_nil_iff (hnodes : ∀ v, v ∉ nodes → next v = []) {cycle : List κ}
    (h : findCycle next nodes = some cycle) :
    cycle ≠ [] ↔ ∃ v, Relation.TransGen (Edge next) v v := by
  obtain ⟨cycle', h', hcycle, hwf⟩ := findCycle_spec hnodes
  obtain rfl : cycle' = cycle := Option.some.inj (h'.symm.trans h)
  constructor
  · intro hne
    cases cycle' with
    | nil => exact absurd rfl hne
    | cons v cycle => exact ⟨v, (hcycle hne).transGen⟩
  · rintro ⟨v, hv⟩ heq
    exact (hwf heq).transGen.irrefl.irrefl v (Relation.transGen_swap.2 hv)

/-- **Nothing is found if and only if every set of vertices has one with no edge into it.** -/
theorem findCycle_eq_nil_iff (hnodes : ∀ v, v ∉ nodes → next v = []) {cycle : List κ}
    (h : findCycle next nodes = some cycle) :
    cycle = [] ↔ ¬ ∃ D : Set κ, D.Nonempty ∧ ∀ v ∈ D, ∃ w ∈ D, Edge next v w := by
  obtain ⟨cycle', h', hcycle, hwf⟩ := findCycle_spec hnodes
  obtain rfl : cycle' = cycle := Option.some.inj (h'.symm.trans h)
  constructor
  · rintro heq ⟨D, hD, hedge⟩
    obtain ⟨v, hv, hmin⟩ := (hwf heq).has_min D hD
    obtain ⟨w, hw, hvw⟩ := hedge v hv
    exact hmin w hw hvw
  · intro hnone
    by_contra hne
    obtain ⟨v, hv⟩ := List.exists_mem_of_ne_nil _ hne
    exact hnone ⟨{v | v ∈ cycle'}, ⟨v, hv⟩, fun v hv => (hcycle hne).exists_edge hv⟩

end CycleSearch
