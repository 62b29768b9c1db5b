/-
**Forwarding does not go around in circles.**

A node that does not lead passes a call on to the node in its `leader_id`, which may be out of date:
the field is written when a node becomes leader and when it accepts an AppendEntries call, and at no
other time, so that the node it names may long follow somebody else.  That node passes the call on
in turn, and nothing in `_proxy_to_leader` counts the hops.

Nothing has to.  Every node has its `leader_id` from some term, which is the term of the call that
it accepted, and the node that is named led that term; if it names somebody else now, it has heard
of a later leader.  So the terms grow along a route, and it ends at a node that names itself.  That
node leads, unless a vote request has deposed it in the meantime (`Raft.namesLeader_fails`); then it
passes the call on to itself, and there is no other circle.

Main definitions:

* `Pointers.Route` — going from node to node along pointers;
* `Raft.forwardsTo` — **the node to which a node passes a call on**;
* `Raft.Named` — the terms that the nodes have their `leader_id` from.

Main results:

* `Pointers.exists_route` — pointers along which a rank grows lead to a node where they stay;
* `Pointers.isPrefix_or_eq_of_route` — there is no other way to go;
* `Raft.exists_named` — the rank is the term of the call that was accepted;
* `Raft.routesEnd` — **a call reaches a node that names itself, and goes to no other node twice**.
-/

import DistSync.RaftLeaderId
import DistSync.RaftSafety
import Mathlib.Data.Finset.Lattice.Fold
import Mathlib.Data.List.Chain

set_option relaxedAutoImplicit false
set_option autoImplicit false

/-! ### Pointers -/

namespace Pointers

variable {ν : Type*} {next : ν → Option ν} {rank : ν → ℕ} {bound : ℕ}

/-- Every node of the list points to the next one. -/
def Route (next : ν → Option ν) (route : List ν) : Prop :=
  route.IsChain fun n m => next n = some m

/-- The pointers lead nowhere else from here: the node points to itself, or to nothing. -/
def Stays (next : ν → Option ν) (n : ν) : Prop := ∀ m, next n = some m → m = n

/-- **Where a rank grows along the pointers, they lead to a node where they stay**, and past no node
twice. -/
theorem exists_route
    (hgrows : ∀ n m, next n = some m → m ≠ n → rank n < rank m ∨ Stays next m)
    (hbound : ∀ n, next n ≠ none → rank n ≤ bound) (n : ν) :
    ∃ route m, route.head? = some n ∧ route.getLast? = some m ∧ Stays next m ∧
      Route next route ∧ route.Nodup := by
  -- the route that is left does not go below the rank of its first node
  suffices h : ∃ route m, route.head? = some n ∧ route.getLast? = some m ∧ Stays next m ∧
      Route next route ∧ route.Nodup ∧
        ∀ x ∈ route, ¬ Stays next n → rank n ≤ rank x ∨ Stays next x by
    obtain ⟨route, m, hhead, hlast, hstays, hroute, hnodup, -⟩ := h
    exact ⟨route, m, hhead, hlast, hstays, hroute, hnodup⟩
  induction hleft : bound - rank n using Nat.strongRecOn generalizing n with
  | _ left ih =>
      by_cases hstays : Stays next n
      · exact ⟨[n], n, rfl, rfl, hstays, List.isChain_singleton n, List.nodup_singleton n,
          fun _ _ hgoes => absurd hstays hgoes⟩
      · obtain ⟨m, hm, hne⟩ : ∃ m, next n = some m ∧ m ≠ n := by simpa [Stays] using hstays
        by_cases hstays' : Stays next m
        · refine ⟨[n, m], m, rfl, rfl, hstays', List.isChain_pair.2 hm, by simpa using hne.symm, ?_⟩
          intro x hx _
          rcases List.mem_pair.1 hx with rfl | rfl
          · exact .inl le_rfl
          · exact .inr hstays'
        · have hlt := (hgrows n m hm hne).resolve_right hstays'
          have hle := hbound m fun hnone => hstays' fun x hx => by
            rw [hnone] at hx
            cases hx
          obtain ⟨route, last, hhead, hlast, hend, hroute, hnodup, hall⟩ :=
            ih (bound - rank m) (by omega) m rfl
          have hhigh : ∀ x ∈ route, rank n < rank x ∨ Stays next x := fun x hx =>
            (hall x hx hstays').imp_left hlt.trans_le
          refine ⟨n :: route, last, rfl, ?_, hend, ?_, ?_, ?_⟩
          · rw [List.getLast?_cons, hlast]
            rfl
          · refine List.isChain_cons.2 ⟨fun y hy => ?_, hroute⟩
            rw [hhead] at hy
            rw [hm, Option.some.inj hy]
          · refine List.nodup_cons.2 ⟨fun hmem => ?_, hnodup⟩
            exact (hhigh n hmem).elim (lt_irrefl _) hstays
          · intro x hx _
            rcases List.mem_cons.1 hx with rfl | hx
            · exact .inl le_rfl
            · exact (hhigh x hx).imp_left le_of_lt

/-- What the pointers keep is true all along a route. -/
theorem Route.forall_mem {P : ν → Prop} (hnext : ∀ n m, P n → next n = some m → P m)
    {route : List ν} (h : Route next route) (hhead : ∀ n ∈ route.head?, P n) :
    ∀ x ∈ route, P x := by
  induction route with
  | nil => exact fun x hx => by cases hx
  | cons n route ih =>
      obtain ⟨hfirst, hrest⟩ := List.isChain_cons.1 h
      have hn : P n := hhead n rfl
      intro x hx
      rcases List.mem_cons.1 hx with rfl | hx
      · exact hn
      · exact ih hrest (fun m hm => hnext n m hn (hfirst m hm)) x hx

/-- From a node where the pointers stay one comes to no other. -/
theorem Route.eq_replicate {n : ν} (hstays : Stays next n) {route : List ν}
    (h : Route next (n :: route)) : ∃ j, route = List.replicate j n := by
  induction route with
  | nil => exact ⟨0, rfl⟩
  | cons m route ih =>
      obtain ⟨hm, hrest⟩ := List.isChain_cons_cons.1 h
      obtain rfl := hstays m hm
      obtain ⟨j, rfl⟩ := ih hrest
      exact ⟨j + 1, rfl⟩

/-- **There is one way to go**: who follows the pointers is on the route, or stays at its end, which
points to itself then. -/
theorem isPrefix_or_eq_of_route {route walk : List ν} {m : ν} (hroute : Route next route)
    (hlast : route.getLast? = some m) (hstays : Stays next m) (hwalk : Route next walk)
    (hhead : walk.head? = route.head?) :
    walk <+: route ∨ next m = some m ∧ ∃ j, walk = route ++ List.replicate j m := by
  induction route generalizing walk with
  | nil => cases hlast
  | cons n route ih =>
      cases walk with
      | nil => exact .inl List.nil_prefix
      | cons n' walk =>
          obtain rfl : n' = n := Option.some.inj hhead
          cases walk with
          | nil => exact .inl (List.prefix_append [n'] route)
          | cons x walk =>
              obtain ⟨hx, hwalk'⟩ := List.isChain_cons_cons.1 hwalk
              cases route with
              | nil =>
                  obtain rfl : n' = m := Option.some.inj hlast
                  obtain ⟨j, hj⟩ := hwalk.eq_replicate hstays
                  rw [hstays x hx] at hx
                  exact .inr ⟨hx, j, by rw [hj, List.singleton_append]⟩
              | cons y route =>
                  obtain ⟨hy, hroute'⟩ := List.isChain_cons_cons.1 hroute
                  obtain rfl : x = y := Option.some.inj (hx.symm.trans hy)
                  rw [List.getLast?_cons_cons] at hlast
                  refine (ih hroute' hlast hwalk' rfl).imp (fun hpre => ?_) fun ⟨hself, j, hj⟩ =>
                    ⟨hself, j, congrArg (List.cons n') hj⟩
                  exact (List.prefix_cons_inj n').2 hpre

end Pointers

/-! ### Where a node has its `leader_id` from -/

namespace Raft

open Runs LockManager

variable {ν Cmd : Type} {M : Membership ν} {n : ν} {node node' : RaftNode ν Cmd}
  {calls : List (AppendCall ν Cmd)} {T : ℕ}

/-- **The node has its `leader_id` from term `T`**: it became leader there, or it accepted a call of
the node that it names.  If it has sent calls itself, they are of no later term, and of an earlier
one when it names somebody else. -/
structure NamedSince (M : Membership ν) (calls : List (AppendCall ν Cmd)) (n : ν)
    (node : RaftNode ν Cmd) (T : ℕ) : Prop where
  member : node.leaderId ≠ none → n ∈ M.nodes
  le : T ≤ node.currentTerm
  leader : node.state = .leader → node.leaderId = some n ∧ T = node.currentTerm
  heard : ∀ m, node.leaderId = some m → m ≠ n →
    ∃ c ∈ calls, c.payload.leaderId = m ∧ c.payload.term = T
  sent : ∀ c ∈ calls, c.payload.leaderId = n →
    node.leaderId ≠ none ∧ c.payload.term ≤ T ∧ (c.payload.term = T → node.leaderId = some n)

/-- Every node has its `leader_id` from some term. -/
def Named (M : Membership ν) (s : Cluster ν Cmd) : Prop :=
  ∀ n, ∃ T, NamedSince M s.appendCalls n (s.nodes n).raft T

/-- A later term, and the end of a leadership, change nothing. -/
theorem NamedSince.of_eq (h : NamedSince M calls n node T) (hid : node'.leaderId = node.leaderId)
    (hterm : node.currentTerm ≤ node'.currentTerm)
    (hstate : node'.state = .leader → node.state = .leader ∧
      node'.currentTerm = node.currentTerm) : NamedSince M calls n node' T where
  member := by
    rw [hid]
    exact h.member
  le := h.le.trans hterm
  leader := by
    intro hleader
    obtain ⟨hleader, hsame⟩ := hstate hleader
    rw [hid, hsame]
    exact h.leader hleader
  heard := by
    rw [hid]
    exact h.heard
  sent := by
    rw [hid]
    exact h.sent

/-- Calls of other nodes do not matter. -/
theorem NamedSince.snoc (h : NamedSince M calls n node T) {c : AppendCall ν Cmd}
    (hc : c.payload.leaderId = n →
      node.leaderId ≠ none ∧ c.payload.term ≤ T ∧ (c.payload.term = T → node.leaderId = some n)) :
    NamedSince M (calls ++ [c]) n node T where
  member := h.member
  le := h.le
  leader := h.leader
  heard := by
    intro m hm hne
    obtain ⟨c', hc', hfrom⟩ := h.heard m hm hne
    exact ⟨c', List.mem_append_left _ hc', hfrom⟩
  sent := by
    intro c' hc' hid
    rcases List.mem_append.1 hc' with hc' | hc'
    · exact h.sent c' hc' hid
    · rw [List.mem_singleton.1 hc'] at hid ⊢
      exact hc hid

/-- A node becomes leader of its term. -/
theorem NamedSince.won [DecidableEq ν] (h : NamedSince M calls n node T) (hn : n ∈ M.nodes)
    (peers : List ν) : NamedSince M calls n (becomeLeader n peers node) node.currentTerm where
  member := fun _ => hn
  le := le_rfl
  leader := fun _ => ⟨rfl, rfl⟩
  heard := fun _ hm hne => absurd (Option.some.inj hm).symm hne
  sent := fun c hc hid =>
    ⟨Option.some_ne_none n, (h.sent c hc hid).2.1.trans h.le, fun _ => rfl⟩

theorem handleAppendEntries_leaderId {data : AppendEntries ν Cmd}
    (hterm : node.currentTerm ≤ data.term) :
    (handleAppendEntries node data).1.leaderId = some data.leaderId := by
  cases hprev : prevMatches node.log data.prevLogIndex data.prevLogTerm with
  | false =>
      rw [handleAppendEntries_of_mismatch node hterm hprev]
      rfl
  | true =>
      rw [handleAppendEntries_of_match node hterm hprev,
        applyCommitted_frame _ (·.leaderId) fun _ _ _ => rfl]
      rfl

/-- A node that accepts a call has its `leader_id` from the term of the call. -/
theorem NamedSince.accept (h : NamedSince M calls n node T) (hn : n ∈ M.nodes)
    (hunique : ∀ c ∈ calls, ∀ c' ∈ calls, c.payload.term = c'.payload.term →
      c.payload.leaderId = c'.payload.leaderId)
    {c : AppendCall ν Cmd} (hc : c ∈ calls) (hterm : node.currentTerm ≤ c.payload.term) :
    NamedSince M calls n (handleAppendEntries node c.payload).1 c.payload.term where
  member := fun _ => hn
  le := by
    rw [handleAppendEntries_currentTerm]
    exact le_max_right _ _
  leader := by
    rw [handleAppendEntries_state node hterm]
    exact fun hleader => by cases hleader
  heard := by
    intro m hm _
    rw [handleAppendEntries_leaderId hterm] at hm
    exact ⟨c, hc, Option.some.inj hm, rfl⟩
  sent := by
    intro c' hc' hid
    rw [handleAppendEntries_leaderId hterm]
    refine ⟨Option.some_ne_none _, ((h.sent c' hc' hid).2.1.trans h.le).trans hterm, fun heq => ?_⟩
    -- the two calls are of one term, and so of one leader
    rw [← hunique c' hc' c hc heq, hid]

/-! ### Runs -/

variable [DecidableEq ν] {s s' : Cluster ν Cmd} {callback : ν → ApplyCallback Cmd}

/-- **Calls of one term come from one node**, when coroutines go on in their terms. -/
theorem sender_unique (h : Run (Raft.step M) (InTerm M) (initial callback) s) :
    ∀ c ∈ s.appendCalls, ∀ c' ∈ s.appendCalls, c.payload.term = c'.payload.term →
      c.payload.leaderId = c'.payload.leaderId := by
  obtain ⟨t, -, hT⟩ := exists_history h
  intro c hc c' hc' hterm
  obtain ⟨l, -, -, hl, hleader, -⟩ := hT.copyNet.call c hc
  obtain ⟨l', -, -, hl', hleader', -⟩ := hT.copyNet.call c' hc'
  rw [hterm, hl'] at hl
  obtain rfl := Option.some.inj hl
  exact hleader.symm.trans hleader'

omit [DecidableEq ν] in
theorem named_initial : Named M (initial callback) := fun _ =>
  ⟨0, fun hknows => absurd rfl hknows, le_rfl, fun h => (by cases h), fun _ h => (by cases h),
    fun _ h => (by cases h)⟩

theorem Named.step {a : Action ν Cmd} (hN : Named M s) (hF : FrameInv M s) (hF' : FrameInv M s')
    (hunique : ∀ c ∈ s.appendCalls, ∀ c' ∈ s.appendCalls, c.payload.term = c'.payload.term →
      c.payload.leaderId = c'.payload.leaderId)
    (hok : InTerm M s a) (h : Moves M s a s') : Named M s' := by
  have key : ∀ {n : ν} {p : Process ν Cmd}, (∃ T, NamedSince M s.appendCalls n p.raft T) →
      ∀ m, ∃ T, NamedSince M s.appendCalls m ((s.set n p).nodes m).raft T := fun hp =>
    Cluster.set_forall (P := fun n p => ∃ T, NamedSince M s.appendCalls n p.raft T) hN hp
  have same : ∀ {n : ν} {p : Process ν Cmd}, p.raft.leaderId = (s.nodes n).raft.leaderId →
      (s.nodes n).raft.currentTerm ≤ p.raft.currentTerm →
      (p.raft.state = .leader → (s.nodes n).raft.state = .leader ∧
        p.raft.currentTerm = (s.nodes n).raft.currentTerm) →
      ∀ m, ∃ T, NamedSince M s.appendCalls m ((s.set n p).nodes m).raft T :=
    fun {n p} hid hterm hstate => key ((hN n).imp fun _ hT => hT.of_eq hid hterm hstate)
  cases h with
  | @electionTimeout n hn hstate hidle =>
      exact same rfl (Nat.le_succ _) fun hleader => by cases hleader
  | @requestVote call voter payload hcall hvoter =>
      refine same (handleRequestVote_leaderId _ payload) ?_ fun hleader => ?_
      · rw [handleRequestVote_currentTerm]
        exact le_max_left _ _
      · rw [handleRequestVote_state] at hleader
        split at hleader
        · cases hleader
        · next hterm =>
            rw [handleRequestVote_currentTerm]
            exact ⟨hleader, max_eq_left (not_lt.1 hterm)⟩
  | @electionWon n replies payload hel hnodup hreplies hwon =>
      obtain ⟨T, hT⟩ := hN n
      have hn : n ∈ M.nodes := by
        refine hF'.leader n ?_
        rw [Cluster.set_nodes_self]
        rfl
      exact key ⟨_, hT.won hn (M.peers n)⟩
  | electionLost hel hlost => exact same rfl le_rfl fun hleader => ⟨hleader, rfl⟩
  | appendEntry hleader => exact same rfl le_rfl fun hleader => ⟨hleader, rfl⟩
  | heartbeat hloop hleader => exact same rfl le_rfl fun hleader => ⟨hleader, rfl⟩
  | heartbeatExit hloop hstate => exact same rfl le_rfl fun hleader => ⟨hleader, rfl⟩
  | @replicateStart n k owner peer htask =>
      have hsent : ∀ m, ∃ T, NamedSince M
          (s.appendCalls ++ [⟨peer, replicateToPeer n (s.nodes n).raft peer⟩]) m
          (s.nodes m).raft T := by
        intro m
        obtain ⟨T, hT⟩ := hN m
        refine ⟨T, hT.snoc fun hid => ?_⟩
        -- the sender leads, and names itself since it won
        obtain rfl : n = m := hid
        obtain ⟨hself, hterm⟩ := hT.leader hok
        rw [hself]
        exact ⟨Option.some_ne_none n, hterm.ge, fun _ => rfl⟩
      refine Cluster.set_forall (P := fun m p => ∃ T, NamedSince M
        (s.appendCalls ++ [⟨peer, replicateToPeer n (s.nodes n).raft peer⟩]) m p.raft T) hsent ?_
      exact hsent n
  | @appendEntries call peer payload hcall =>
      have hmem := List.mem_of_getElem? hcall
      obtain ⟨hsender, hpeer⟩ := hF.call _ hmem
      obtain ⟨T, hT⟩ := hN peer
      rcases lt_or_ge payload.term (s.nodes peer).raft.currentTerm with hterm | hterm
      · refine key ⟨T, ?_⟩
        rw [handleAppendEntries_of_stale _ hterm]
        exact hT
      · exact key ⟨_, hT.accept ((M.mem_peers hsender).1 hpeer).1 hunique hmem hterm⟩
  | @replicateEnd n k reply owner peer call nextIndex payload htask hreply =>
      refine same (replicateReply_frame _ _ _ _ _ (·.leaderId) fun _ _ _ => rfl) ?_
        fun hleader => ?_
      · rw [replicateReply_currentTerm]
      · rw [replicateReply_state] at hleader
        exact ⟨hleader, replicateReply_currentTerm _ _ _ _ _⟩
  | @appendEnd n id frame hframe =>
      refine same (concludeAppend_frame _ (·.leaderId) (fun _ _ _ _ => rfl) _ _ _) ?_
        fun hleader => ?_
      · rw [concludeAppend_currentTerm]
      · rw [concludeAppend_state] at hleader
        exact ⟨hleader, concludeAppend_currentTerm _ _ _ _⟩

/-- **Every node has its `leader_id` from some term.** -/
theorem exists_named (h : Run (Raft.step M) (InTerm M) (initial callback) s) : Named M s := by
  have hall : FrameInv M s ∧ Named M s := by
    induction h with
    | refl => exact ⟨frameInv_initial, named_initial⟩
    | tail hrun hok hstep ih =>
        have hmoves := moves_of_step hstep
        have hE := electionInv_run hrun
        have hF := ih.1.step hE hmoves
        exact ⟨hF, ih.2.step ih.1 hF (sender_unique hrun) hok hmoves⟩
  exact hall.2

/-- The node to which `_proxy_to_leader` passes a call on; a leader keeps it. -/
def forwardsTo (s : Cluster ν Cmd) (n : ν) : Option ν :=
  if (s.nodes n).raft.state = .leader then none else (s.nodes n).raft.leaderId

omit [DecidableEq ν] in
theorem leaderId_of_forwardsTo {m : ν} (h : forwardsTo s n = some m) :
    (s.nodes n).raft.leaderId = some m := by
  rw [forwardsTo] at h
  split at h
  · cases h
  · exact h

/-- **A call that is passed on arrives.**  When coroutines go on in the term in which they were
suspended, a call at a node that knows a leader goes from node to node, to none of them twice, until
it comes to a node that names itself.  It goes no other way; if it does not stay there, the node
passes it on to itself.  If no vote request has deposed a leader, the node leads. -/
theorem routesEnd (h : Run (Raft.step M) (InTerm M) (initial callback) s)
    (hknows : (s.nodes n).raft.leaderId ≠ none) :
    ∃ route m, route.head? = some n ∧ route.getLast? = some m ∧
      Pointers.Route (forwardsTo s) route ∧ route.Nodup ∧ route.length ≤ M.nodes.length ∧
      (s.nodes m).raft.leaderId = some m ∧
      (∀ walk, Pointers.Route (forwardsTo s) walk → walk.head? = some n → walk <+: route ∨
        (s.nodes m).raft.state ≠ .leader ∧ ∃ j, walk = route ++ List.replicate j m) ∧
      (Run (Raft.step M) NotDeposed (initial callback) s → (s.nodes m).raft.state = .leader) := by
  choose rank hrank using exists_named h
  have hgrows : ∀ n m, forwardsTo s n = some m → m ≠ n →
      rank n < rank m ∨ Pointers.Stays (forwardsTo s) m := by
    intro n m hm hne
    obtain ⟨c, hc, rfl, hterm⟩ := (hrank n).heard m (leaderId_of_forwardsTo hm) hne
    obtain ⟨-, hle, hsame⟩ := (hrank _).sent c hc rfl
    rcases lt_or_eq_of_le hle with hlt | heq
    · exact .inl (hterm ▸ hlt)
    · refine .inr fun x hx => ?_
      have hself := (leaderId_of_forwardsTo hx).symm.trans (hsame heq)
      exact Option.some.inj hself
  have hnext : ∀ n m, (s.nodes n).raft.leaderId ≠ none → forwardsTo s n = some m →
      (s.nodes m).raft.leaderId ≠ none := by
    intro n m _ hm
    by_cases hne : m = n
    · rw [hne, leaderId_of_forwardsTo hm]
      exact Option.some_ne_none m
    · obtain ⟨c, hc, rfl, -⟩ := (hrank n).heard m (leaderId_of_forwardsTo hm) hne
      exact ((hrank _).sent c hc rfl).1
  have hbound : ∀ n, forwardsTo s n ≠ none → rank n ≤ M.nodes.toFinset.sup rank := by
    intro n hn
    obtain ⟨m, hm⟩ := Option.ne_none_iff_exists'.1 hn
    have hid : (s.nodes n).raft.leaderId ≠ none := by
      rw [leaderId_of_forwardsTo hm]
      exact Option.some_ne_none m
    exact Finset.le_sup (List.mem_toFinset.2 ((hrank n).member hid))
  obtain ⟨route, m, hhead, hlast, hstays, hroute, hnodup⟩ :=
    Pointers.exists_route hgrows hbound n
  have hall := hroute.forall_mem hnext fun x hx => by
    rw [hhead] at hx
    exact Option.some.inj hx ▸ hknows
  have hself : (s.nodes m).raft.leaderId = some m := by
    by_cases hleader : (s.nodes m).raft.state = .leader
    · exact ((hrank m).leader hleader).1
    · obtain ⟨x, hx⟩ := Option.ne_none_iff_exists'.1 (hall m (List.mem_of_getLast? hlast))
      have hforwards : forwardsTo s m = some x := by rw [forwardsTo, if_neg hleader, hx]
      rw [hx, hstays x hforwards]
  refine ⟨route, m, hhead, hlast, hroute, hnodup, ?_, hself, fun walk hwalk hfirst => ?_,
    fun hrun => (knowsItself_run hrun m).1 hself⟩
  · -- all nodes of the route are members
    exact (hnodup.subperm fun x hx => (hrank x).member (hall x hx)).length_le
  · refine (Pointers.isPrefix_or_eq_of_route hroute hlast hstays hwalk
      (hfirst.trans hhead.symm)).imp_right fun ⟨hforwards, hwalk⟩ => ⟨fun hleader => ?_, hwalk⟩
    rw [forwardsTo, if_pos hleader] at hforwards
    cases hforwards

/-- Node 2 follows node 0 in term 1, and votes for node 1 in term 2; node 0 follows node 1. -/
def twoHops : List (Action (Fin 3) ℕ) :=
  [.electionTimeout 0, .requestVote 0 1, .electionResult 0 [(1, ⟨1, true⟩)], .heartbeat 0,
    .replicateStart 0 1, .appendEntries 0, .electionTimeout 1, .requestVote 1 2,
    .electionResult 1 [(2, ⟨2, true⟩)], .heartbeat 1, .replicateStart 1 0, .appendEntries 1]

/-- Node 2 still names node 0, and what it passes on reaches the leader. -/
theorem routesEnd_twoHops :
    ∃ s : Cluster (Fin 3) ℕ, Run (Raft.step trio) (InTerm trio) (initial returning) s ∧
      (s.nodes 2).raft.leaderId = some 0 ∧ (s.nodes 0).raft.leaderId = some 1 ∧
      ∃ route m, route.head? = some 2 ∧ route.getLast? = some m ∧
        Pointers.Route (forwardsTo s) route ∧ (s.nodes m).raft.state = .leader := by
  obtain ⟨s, hs, h2, h0⟩ := Run.exists_of_exec (Raft.step trio)
    (fun s a => InTerm trio s a ∧ NotDeposed s a) (initial returning) twoHops
    (fun s => (s.nodes 2).raft.leaderId = some 0 ∧ (s.nodes 0).raft.leaderId = some 1) (by decide)
  have hin : Run (Raft.step trio) (InTerm trio) (initial returning) s :=
    hs.mono fun _ _ h => h.1
  obtain ⟨route, m, hhead, hlast, hroute, -, -, -, -, hleads⟩ :=
    routesEnd hin (by rw [h2]; exact Option.some_ne_none _)
  exact ⟨s, hin, h2, h0, route, m, hhead, hlast, hroute, hleads (hs.mono fun _ _ h => h.2)⟩

end Raft
