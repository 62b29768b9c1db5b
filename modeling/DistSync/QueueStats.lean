/-
**What the statistics of a queue say.**

`handle_stats` answers with two numbers for a queue, the messages that wait and those that are in
flight.  A node that does not own the queue asks the owner, with a URL that carries the name, and
passes the answer on.  So whichever node is asked, the numbers are those of the owner, and this is
all there is of the queue: together they are the messages that were enqueued and whose acks were not
accepted.  Asking enters the name in the tables of the owner, which changes no number.

What the owner reads from the URL is a matter of the HTTP library, and a parameter here.  The
numbers are right for the names that it gives back; by the usual rules these are the ones that are
fit for a query (`InternalUrls.names_iff`).

Main definitions:

* `QueueNode.Router.handleStats` — the handler of `/queue/stats`;
* `QueueNode.statsStep` — a cluster whose nodes are asked for statistics at any time;
* `QueueNode.Reached` — a request to a peer fails, or is answered by this peer;
* `QueueNode.ReadsBack` — the HTTP library gives a name back.

Main results:

* `QueueNode.Conserved.count` — what a node holds of a queue, in numbers;
* `QueueNode.statsRight` — **every node gives the right numbers for every queue**.
-/

import DistSync.InternalUrls
import DistSync.QueueCluster

set_option relaxedAutoImplicit false
set_option autoImplicit false

namespace QueueNode

open Runs InternalUrls

variable {δ : Type*}

/-! ### The handler -/

/-- An answer of `handle_stats`. -/
inductive StatsAnswer
  | error (error : String) (status : ℕ)
  | stats (queue : String) (pending processing : ℕ)

/-- The URL at a peer, in `handle_stats`. -/
def PeerInfo.statsUrl (peer : PeerInfo) (queueName : String) : String :=
  rstrip peer.url ++ ("/queue/stats?queue=" ++ queueName)

/-- **`handle_stats`**: the node after the request, and the answer.  What `request_json` gets from a
URL is given; an answer with an error status is not passed on. -/
def Router.handleStats (node : Router) (state : DistributedQueueNode δ)
    (requestJson : String → Option StatsAnswer) (queueName : Option String) :
    DistributedQueueNode δ × StatsAnswer :=
  match queueName.filter (· ≠ "") with
  | none => (state, .error "missing_queue" 400)
  | some name =>
      let targetNode := node.ring.getNode name
      if targetNode = some node.nodeId then
        -- reading the two tables enters the name
        ({ state with
          queues := state.queues.setdefault name []
          processing := state.processing.setdefault name ∅ },
        .stats name (queueOf state.queues name).length (inFlight state.processing name).size)
      else
        match targetNode.bind node.busPeers.get? with
        | none => (state, .error "peer_not_found" 500)
        | some peer =>
            (state, match requestJson (peer.statsUrl name) with
              | some (.stats queue pending processing) => .stats queue pending processing
              | _ => .error "forward_failed" 500)

/-- What can happen in a cluster whose nodes are asked for statistics. -/
inductive StatsAction (δ : Type*)
  | cluster (a : ClusterAction δ)
  /-- A client, or another node, asks a node. -/
  | stats (n : String) (queueName : Option String)

/-- One step of the cluster, or a request for statistics. -/
def statsStep (D : Deployment δ) (s : QueueCluster δ) : StatsAction δ → Option (QueueCluster δ)
  | .cluster a => clusterStep D s a
  | .stats n queueName =>
      if n ∈ D.members then
        let node := ((D.router n).handleStats (s.services n).node (fun _ => none) queueName).1
        some { s with services := Function.update s.services n { s.services n with node := node } }
      else none

/-- Every message gets a new id, and no node crashes. -/
def StatsFresh (D : Deployment δ) (s : QueueCluster δ) : StatsAction δ → Prop
  | .cluster a => ClusterFresh D s a
  | .stats _ _ => True

/-- **The network**: a request for the statistics of the queue that is sent to a peer fails, or is
answered by this peer; `readQueue` is what the peer reads with `request.query.get("queue")` from a
URL. -/
def Reached (D : Deployment δ) (s : QueueCluster δ) (readQueue : String → Option String)
    (requestJson : String → Option StatsAnswer) (queueName : String) : Prop :=
  ∀ n ∈ D.members, ∀ peer ∈ (D.router n).peers,
    requestJson (peer.statsUrl queueName) = none ∨
    requestJson (peer.statsUrl queueName) = some
      ((D.router peer.nodeId).handleStats (s.services peer.nodeId).node requestJson
        (readQueue (peer.statsUrl queueName))).2

/-- **The HTTP library gives the name back** that a node has put into the URL of a peer. -/
def ReadsBack (D : Deployment δ) (readQueue : String → Option String) (queueName : String) : Prop :=
  ∀ n ∈ D.members, ∀ peer ∈ (D.router n).peers,
    readQueue (peer.statsUrl queueName) = some queueName

/-! ### Counting the messages of a queue -/

/-- The elements for one key of what is collected for all keys. -/
theorem length_filter_gather {α β : Type*} {f : String → α → List (String × β)}
    (hf : ∀ k v, ∀ x ∈ f k v, x.1 = k) (name : String) (v₀ : α) (hv₀ : f name v₀ = [])
    (d : Dict String α) :
    ((Dict.gather f d).filter (·.1 = name)).length = (f name ((d.get? name).getD v₀)).length := by
  have hothers : (Dict.gather f (d.erase name)).filter (·.1 = name) = [] := by
    rw [List.filter_eq_nil_iff]
    intro x hx heq
    obtain ⟨e, he, hxe⟩ := Dict.mem_gather.1 hx
    have hkey : e.1 = name := (hf _ _ x hxe).symm.trans (of_decide_eq_true heq)
    have hget := Dict.get?_eq_some_iff.2 he
    rw [Dict.get?_erase, if_pos hkey] at hget
    cases hget
  rw [((Dict.gather_perm hv₀).filter _).length_eq, List.filter_append, hothers, List.append_nil,
    List.filter_eq_self.2 fun x hx => decide_eq_true (hf _ _ x hx)]

/-- The places under the name of a queue. -/
theorem length_located (node : DistributedQueueNode δ) (name : String) :
    ((located node).filter (·.1 = name)).length =
      (queueOf node.queues name).length + (inFlight node.processing name).size := by
  have hname : ∀ k msgs, ∀ x ∈ (waiting k msgs : List (String × Message δ)), x.1 = k := by
    intro k msgs x hx
    obtain ⟨msg, -, rfl⟩ := List.mem_map.1 hx
    rfl
  have hqueues := length_filter_gather hname name [] rfl node.queues
  have hprocessing := length_filter_gather (f := underway) (fun k _ => hname k _) name ∅ rfl
    node.processing
  rw [located, List.filter_append, List.length_append, hqueues, hprocessing]
  simp [waiting, underway, queueOf, inFlight, Dict.size, Dict.values]

/-- **What a node holds of a queue**: the messages that were enqueued and whose acks were not
accepted. -/
theorem Conserved.count {wal : List (WalEntry δ)} {s : Service δ} (h : Conserved wal s)
    (name : String) :
    (queueOf s.node.queues name).length + (inFlight s.node.processing name).size =
      ((idsOf name (entered wal s)).filter (· ∉ s.accepted)).length := by
  obtain ⟨out, hout, hperm⟩ := h.conserved
  have hids : (idsOf name (entered wal s)).Perm
      (idsOf name ((located s.node).map spot) ++ idsOf name out) := by
    rw [← idsOf_append]
    exact (hperm.symm.filter _).map _
  have hheld : (idsOf name ((located s.node).map spot)).filter (· ∉ s.accepted) =
      idsOf name ((located s.node).map spot) := by
    rw [List.filter_eq_self]
    intro id hid
    obtain ⟨place, hplace, heq⟩ := List.mem_map.1 (mem_idsOf.1 hid)
    refine decide_eq_true fun haccepted => h.not_located haccepted place hplace ?_
    exact congrArg Prod.snd heq
  have hgone : (idsOf name out).filter (· ∉ s.accepted) = [] := by
    rw [List.filter_eq_nil_iff]
    intro id hid
    have haccepted : id ∈ s.accepted := hout ▸ List.mem_map_of_mem (f := Prod.snd) (mem_idsOf.1 hid)
    simpa using haccepted
  rw [← length_located, (hids.filter _).length_eq, List.filter_append, hheld, hgone,
    List.append_nil, idsOf, List.length_map, List.filter_map, List.length_map]
  rfl

/-! ### Runs with statistics -/

variable {D : Deployment δ} {s s' : QueueCluster δ} {n : String}

/-- A request for statistics changes no queue. -/
theorem Router.located_handleStats (node : Router) (state : DistributedQueueNode δ)
    (requestJson : String → Option StatsAnswer) (queueName : Option String) :
    (located (node.handleStats state requestJson queueName).1).Perm (located state) ∧
    (Keyed state.processing → Keyed (node.handleStats state requestJson queueName).1.processing) ∧
    (node.handleStats state requestJson queueName).1.writers = state.writers ∧
    (node.handleStats state requestJson queueName).1.recovery = state.recovery ∧
    (node.handleStats state requestJson queueName).1.wal = state.wal := by
  unfold Router.handleStats
  split
  · exact ⟨List.Perm.refl _, id, rfl, rfl, rfl⟩
  · next name hname =>
      simp only
      split
      · exact ⟨(Dict.gather_setdefault rfl).append (Dict.gather_setdefault rfl),
          fun h => h.setdefault name, rfl, rfl, rfl⟩
      · split <;> exact ⟨List.Perm.refl _, id, rfl, rfl, rfl⟩

/-- The messages of every node are conserved, they are of its own queues, and the requests between
the nodes are for the owners. -/
structure StatsInv (D : Deployment δ) (s : QueueCluster δ) : Prop where
  conserved : ∀ n ∈ D.members, Conserved (D.wal n) (s.services n)
  owned : ∀ n ∈ D.members, Owned (fun queueName => D.owner queueName = some n) (D.wal n)
    (s.services n)
  routed : ∀ t ∈ s.sent, Routed D t

/-- A step of one node. -/
theorem StatsInv.update (h : StatsInv D s) {service : Service δ}
    {sent : List (Option String × Request δ)} (hsent : ∀ t ∈ sent, Routed D t)
    (hconserved : Conserved (D.wal n) service)
    (howned : Owned (fun queueName => D.owner queueName = some n) (D.wal n) service) :
    StatsInv D ⟨Function.update s.services n service, sent⟩ := by
  refine ⟨fun m hm => ?_, fun m hm => ?_, hsent⟩ <;> by_cases hmn : m = n
  · subst hmn
    simpa only [Function.update_self] using hconserved
  · simpa only [Function.update_of_ne hmn] using h.conserved m hm
  · subst hmn
    simpa only [Function.update_self] using howned
  · simpa only [Function.update_of_ne hmn] using h.owned m hm

theorem StatsInv.step (h : StatsInv D s) {a : StatsAction δ} (hok : StatsFresh D s a)
    (h' : statsStep D s a = some s') : StatsInv D s' := by
  cases a with
  | cluster a =>
      cases moves_of_clusterStep h.routed h' with
      | refuse => exact h
      | send t hrouted =>
          refine ⟨h.conserved, h.owned, fun t' ht => ?_⟩
          rcases List.mem_append.1 ht with hold | hnew
          · exact h.routed t' hold
          · rwa [List.mem_singleton.1 hnew]
      | act n b service sent hn hfresh howner hstep hsent =>
          exact h.update (fun t ht => h.routed t (hsent ht))
            ((h.conserved n hn).step (hfresh hok) (moves_of_step hstep))
            ((h.owned n hn).step (moves_of_step hstep) howner)
  | stats n queueName =>
      simp only [statsStep, Option.ite_none_right_eq_some] at h'
      obtain ⟨hn, h'⟩ := h'
      obtain rfl := Option.some.inj h'
      obtain ⟨hperm, hkeyed, hwriters, hrecovery, hwal⟩ := (D.router n).located_handleStats
        (s.services n).node (fun _ => none) queueName
      refine h.update h.routed ?_ ?_
      · have hC := h.conserved n hn
        refine hC.of_frame (hrecovery.trans hC.recovery) (hkeyed hC.keyed) hperm rfl ?_ rfl rfl
        rw [publishing, publishing, hwriters]
      · exact (h.owned n hn).of_frame hwriters hwal

/-- **The messages stay where they belong**, whatever statistics are asked for. -/
theorem statsInv_run (hids : ∀ n ∈ D.members, ((enqueued (D.wal n)).map Message.id).Nodup)
    (howned : ∀ n ∈ D.members, ∀ m ∈ enqueued (D.wal n), D.owner m.queue = some n)
    (h : Run (statsStep D) (StatsFresh D) D.opened s) : StatsInv D s :=
  h.invariant (fun _ _ _ hI hok hstep => hI.step hok hstep)
    ⟨fun n hn => conserved_opened (hids n hn), fun n hn => owned_opened (howned n hn),
      fun _ ht => (by cases ht)⟩

/-! ### The answers -/

/-- The peer that the bus has under an id. -/
theorem Router.mem_of_busPeers {node : Router} {id : String} {peer : PeerInfo}
    (h : node.busPeers.get? id = some peer) : peer ∈ node.peers ∧ peer.nodeId = id := by
  have hfold : ∀ (peers : List PeerInfo) (d : Dict String PeerInfo),
      (peers.foldl (fun d peer => d.set peer.nodeId peer) d).get? id = some peer →
        (peer ∈ peers ∧ peer.nodeId = id) ∨ d.get? id = some peer := by
    intro peers
    induction peers with
    | nil => exact fun d h => .inr h
    | cons first peers ih =>
        intro d h
        rcases ih _ h with ⟨hmem, hid⟩ | hfirst
        · exact .inl ⟨List.mem_cons_of_mem _ hmem, hid⟩
        · rw [Dict.get?_set] at hfirst
          split at hfirst
          · next heq =>
              obtain rfl := Option.some.inj hfirst
              exact .inl ⟨List.mem_cons_self, heq.symm⟩
          · exact .inr hfirst
  exact (hfold node.peers ∅ h).resolve_right fun hempty => by cases hempty

/-- By the usual rules the names are read back that are fit for a query. -/
theorem readsBack_of_fitName (hurls : ∀ n ∈ D.members, ∀ peer ∈ (D.router n).peers,
      '?' ∉ peer.url.toList ∧ '#' ∉ peer.url.toList) {queueName : String}
    (hfit : FitName queueName) : ReadsBack D (queryGet "queue") queueName := by
  intro n hn peer hpeer
  obtain ⟨hquery, hfragment⟩ := hurls n hn peer hpeer
  exact (statsQueue_eq_iff ⟨peer.url, hquery, hfragment⟩ queueName).2 hfit

/-- The owner counts what it has. -/
theorem handleStats_of_owner {node : Router} (state : DistributedQueueNode δ)
    (requestJson : String → Option StatsAnswer) {queueName : String} (hname : queueName ≠ "")
    (howner : node.ring.getNode queueName = some node.nodeId) :
    (node.handleStats state requestJson (some queueName)).2 =
      .stats queueName (queueOf state.queues queueName).length
        (inFlight state.processing queueName).size := by
  rw [Router.handleStats, Option.filter_some, if_pos (decide_eq_true hname)]
  simp only
  rw [if_pos howner]

/-- Another node asks the owner, which it knows. -/
theorem handleStats_of_other {node : Router} (state : DistributedQueueNode δ)
    (requestJson : String → Option StatsAnswer) {queueName owner : String} (hname : queueName ≠ "")
    (howner : node.ring.getNode queueName = some owner) (hne : owner ≠ node.nodeId)
    (hknown : owner ∈ node.ids) :
    ∃ peer ∈ node.peers, peer.nodeId = owner ∧
      (node.handleStats state requestJson (some queueName)).2 =
        match requestJson (peer.statsUrl queueName) with
        | some (.stats queue pending processing) => .stats queue pending processing
        | _ => .error "forward_failed" 500 := by
  obtain ⟨peer, hpeer⟩ := Option.isSome_iff_exists.1
    (Router.isSome_busPeers.2 ((List.mem_cons.1 hknown).resolve_left hne))
  obtain ⟨hmem, hid⟩ := Router.mem_of_busPeers hpeer
  refine ⟨peer, hmem, hid, ?_⟩
  rw [Router.handleStats, Option.filter_some, if_pos (decide_eq_true hname)]
  simp only
  rw [if_neg (by rw [howner]; exact fun heq => hne (Option.some.inj heq))]
  simp only [howner, Option.bind_some, hpeer]

/-- **Every node gives the right numbers for every queue.**  In every run of a cluster without
crashes, with requests for statistics at any time, a client that asks a node for a queue whose name
comes through a URL is told how many messages of the queue wait at its owner and how many are in
flight; together these are all messages of the queue that were enqueued anywhere and whose acks were
not accepted.  A node other than the owner says that it could not reach the owner, when this is
so. -/
theorem statsRight (hids : ∀ n ∈ D.members, ((enqueued (D.wal n)).map Message.id).Nodup)
    (howned : ∀ n ∈ D.members, ∀ m ∈ enqueued (D.wal n), D.owner m.queue = some n)
    (h : Run (statsStep D) (StatsFresh D) D.opened s) {queueName : String} (hname : queueName ≠ "")
    {readQueue : String → Option String} (hread : ReadsBack D readQueue queueName)
    {requestJson : String → Option StatsAnswer}
    (hreached : Reached D s readQueue requestJson queueName) (hn : n ∈ D.members) :
    ∃ owner, D.owner queueName = some owner ∧ ∃ pending processing,
      (((D.router n).handleStats (s.services n).node requestJson (some queueName)).2 =
          .stats queueName pending processing ∨
        n ≠ owner ∧ (∃ peer ∈ (D.router n).peers, peer.nodeId = owner ∧
            requestJson (peer.statsUrl queueName) = none) ∧
          ((D.router n).handleStats (s.services n).node requestJson (some queueName)).2 =
            .error "forward_failed" 500) ∧
      pending = (queueOf (s.services owner).node.queues queueName).length ∧
      pending + processing = ((idsOf queueName (entered (D.wal owner) (s.services owner))).filter
        (· ∉ (s.services owner).accepted)).length ∧
      ∀ m ∈ D.members, m ≠ owner → idsOf queueName (entered (D.wal m) (s.services m)) = [] := by
  have hI := statsInv_run hids howned h
  obtain ⟨owner, hmem, howner⟩ := D.exists_owner queueName
  have hring : ∀ m ∈ D.members, (D.router m).ring.getNode queueName = some owner :=
    fun m hm => (D.getNode_ring hm queueName).trans howner
  have hcounts := handleStats_of_owner (s.services owner).node requestJson hname
    ((hring owner hmem).trans (congrArg some (D.nodeId owner hmem).symm))
  refine ⟨owner, howner, _, _, ?_, rfl, (hI.conserved owner hmem).count queueName,
    fun m hm hne => ?_⟩
  · by_cases hself : n = owner
    · subst hself
      exact .inl hcounts
    · obtain ⟨peer, hpeer, hid, hanswer⟩ := handleStats_of_other (s.services n).node requestJson
        hname (hring n hn) (fun heq => hself ((D.nodeId n hn).symm.trans heq.symm))
        ((D.ids n hn owner).2 hmem)
      rw [hanswer]
      rcases hreached n hn peer hpeer with hfailed | hreply
      · rw [hfailed]
        exact .inr ⟨hself, ⟨peer, hpeer, hid, hfailed⟩, rfl⟩
      · rw [hreply, hid, hread n hn peer hpeer, hcounts]
        exact .inl rfl
  · refine List.eq_nil_iff_forall_not_mem.2 fun id hid => hne ?_
    have hown := (hI.owned m hm).entered _ (mem_idsOf.1 hid)
    exact Option.some.inj (hown.symm.trans howner)

/-! ### Two nodes -/

/-- The two nodes, where the owner of the queue has a message of it in its log. -/
def stocked : Deployment ℕ := { pair with
  wal := fun n => if pair.owner "orders" = some n then [.enqueue ⟨"worker-1", "orders", 7, 0, none⟩]
    else [] }

/-- The URL of a node for the statistics of the queue. -/
def ordersUrl (n : String) : String := PeerInfo.statsUrl ⟨n, "http://" ++ n ++ ":8000"⟩ "orders"

/-- A network in which a node can be reached, and has one message that waits. -/
def onlyReached (n url : String) : Option StatsAnswer :=
  if url = ordersUrl n then some (.stats "orders" 1 0) else none

theorem owner_stocked (queueName : String) : stocked.owner queueName = pair.owner queueName := by
  simp only [Deployment.owner, stocked]

theorem stocked_peers : ∀ n ∈ stocked.members, ∀ peer ∈ (stocked.router n).peers,
    peer.nodeId ∈ stocked.members ∧ peer.url = "http://" ++ peer.nodeId ++ ":8000" ∧
      '?' ∉ peer.url.toList ∧ '#' ∉ peer.url.toList := by
  decide +kernel

theorem ordersUrl_injOn : ∀ n ∈ stocked.members, ∀ m ∈ stocked.members,
    ordersUrl n = ordersUrl m → n = m := by
  decide +kernel

theorem fitName_orders : FitName "orders" := by
  rw [FitName]
  decide +kernel

/-- The owner of the queue has its message and nothing else. -/
theorem stocked_of_owner {owner : String} (howner : stocked.owner "orders" = some owner) :
    (queueOf (stocked.opened.services owner).node.queues "orders").length = 1 ∧
    (inFlight (stocked.opened.services owner).node.processing "orders").size = 0 ∧
    idsOf "orders" (entered (stocked.wal owner) (stocked.opened.services owner)) =
      ["worker-1"] := by
  have hwal : stocked.wal owner = [.enqueue ⟨"worker-1", "orders", 7, 0, none⟩] := by
    rw [owner_stocked] at howner
    simp only [stocked, howner, if_true]
  have hservice : stocked.opened.services owner =
      opened [.enqueue ⟨"worker-1", "orders", 7, 0, none⟩] := congrArg opened hwal
  rw [hservice, hwal]
  exact ⟨rfl, rfl, rfl⟩

/-- The node that is not the owner is asked, and gives the numbers of the owner. -/
theorem statsRight_throughOther : ∃ (s : QueueCluster ℕ) (other : String)
    (requestJson : String → Option StatsAnswer),
    Run (statsStep stocked) (StatsFresh stocked) stocked.opened s ∧ other ∈ stocked.members ∧
    stocked.owner "orders" ≠ some other ∧
    ((stocked.router other).handleStats (s.services other).node requestJson (some "orders")).2 =
      .stats "orders" 1 0 := by
  obtain ⟨owner, other, hmem, hother, hne, hpair⟩ := pair_cases "orders"
  have howner : stocked.owner "orders" = some owner := (owner_stocked "orders").trans hpair
  obtain ⟨hqueue, hflight, hentered⟩ := stocked_of_owner howner
  have hids : ∀ n ∈ stocked.members, ((enqueued (stocked.wal n)).map Message.id).Nodup := by
    intro n hn
    simp only [stocked]
    split <;> decide
  have howned : ∀ n ∈ stocked.members, ∀ m ∈ enqueued (stocked.wal n),
      stocked.owner m.queue = some n := by
    intro n hn m hm
    simp only [stocked] at hm
    split at hm
    · next heq =>
        obtain rfl := List.mem_singleton.1 hm
        exact (owner_stocked _).trans heq
    · cases hm
  have hurls := fun n hn peer hpeer => (stocked_peers n hn peer hpeer).2.2
  have hself : ∀ n ∈ stocked.members, ∀ peer ∈ (stocked.router n).peers,
      peer.statsUrl "orders" = ordersUrl peer.nodeId := by
    intro n hn peer hpeer
    simp only [ordersUrl, PeerInfo.statsUrl, (stocked_peers n hn peer hpeer).2.1]
  have hread := readsBack_of_fitName hurls fitName_orders
  have hreached : Reached stocked stocked.opened (queryGet "queue") (onlyReached owner)
      "orders" := by
    intro n hn peer hpeer
    by_cases heq : peer.nodeId = owner
    · right
      have hring := (stocked.getNode_ring hmem "orders").trans
        (howner.trans (congrArg some (stocked.nodeId owner hmem).symm))
      rw [hread n hn peer hpeer, hself n hn peer hpeer, heq,
        handleStats_of_owner _ _ (by decide) hring, hqueue, hflight]
      exact if_pos rfl
    · left
      rw [hself n hn peer hpeer]
      exact if_neg fun hurl =>
        heq (ordersUrl_injOn _ (stocked_peers n hn peer hpeer).1 owner hmem hurl)
  refine ⟨stocked.opened, other, onlyReached owner, .refl _, hother,
    fun heq => hne (Option.some.inj (heq.symm.trans howner)), ?_⟩
  obtain ⟨owner', heq, pending, processing, hanswer, hpending, hsum, -⟩ :=
    statsRight hids howned (.refl _) (by decide) hread hreached hother
  obtain rfl := Option.some.inj (howner.symm.trans heq)
  rcases hanswer with hanswer | ⟨-, ⟨peer, hpeer, hid, hfailed⟩, -⟩
  · rw [hqueue] at hpending
    rw [hpending, hentered] at hsum
    have hsum' : 1 + processing = 1 := hsum
    obtain rfl : processing = 0 := by omega
    rw [hanswer, hpending]
  · -- the owner was reached
    rw [hself other hother peer hpeer, hid] at hfailed
    cases (if_pos rfl).symm.trans hfailed

end QueueNode
