/-
**Several queue nodes are one table of queues.**

A client may talk to any queue node.  `DistSync/QueueRouting.lean` has what a node does with a
request that is not for it, and `DistSync/QueueNode.lean` what it does with one that is.  Here the
nodes of a cluster are put together: every node has its service, and requests that were sent on are
under way to the internal endpoints.  A request may arrive late or never; a node that sends one on
keeps nothing of it.

The nodes know the same ids, so that they agree on the owner of every queue.  The internal dequeue
does not ask the ring, but a request for it is only ever sent to the owner.  So all messages of a
queue are at its owner, whoever publishes and consumes, and so are the lines of its log: a node can
be started again from its log with the same cluster around it.

Main definitions:

* `QueueNode.Deployment` — the nodes of a cluster, with rings that agree;
* `QueueNode.QueueCluster`, `QueueNode.clusterStep` — **the nodes and the requests between them**.

Main results:

* `QueueNode.run_of_cluster` — what a node goes through is a run of its service;
* `QueueNode.oneQueue` — **a queue is one first-in first-out queue at its owner, and is nowhere
  else**.
-/

import DistSync.QueueOrder
import DistSync.QueueRouting

set_option relaxedAutoImplicit false
set_option autoImplicit false

namespace QueueNode

open Runs ConsistentHashRing

variable {δ : Type*}

/-! ### The cluster -/

/-- The nodes of a cluster: each has its own id and knows the ids of all, and the points of the ring
are different.  A node starts with a log. -/
structure Deployment (δ : Type*) where
  members : List String
  nonempty : members ≠ []
  router : String → Router
  config : String → Config
  wal : String → List (WalEntry δ)
  nodeId : ∀ n ∈ members, (router n).nodeId = n
  ids : ∀ n ∈ members, ∀ id, id ∈ (router n).ids ↔ id ∈ members
  injOn : Set.InjOn ConsistentHashRing.hash (pointsOf members 100)

/-- The node that owns a queue. -/
def Deployment.owner (D : Deployment δ) (queueName : String) : Option String :=
  (ConsistentHashRing.init D.members).getNode queueName

/-- The services of the nodes, and the requests on their way to an internal endpoint. -/
structure QueueCluster (δ : Type*) where
  services : String → Service δ
  sent : List (Option String × Request δ)

/-- What can happen next. -/
inductive ClusterAction (δ : Type*)
  /-- A client sends a request to a node. -/
  | client (n : String) (request : Request δ) (timeNs : ℕ) (time : ℚ)
  /-- A request that was sent on arrives. -/
  | internal (i : ℕ) (timeNs : ℕ) (time : ℚ)
  /-- A node goes on by itself. -/
  | node (n : String) (a : Action δ)

/-- The queue of a request. -/
def Request.queueName : Request δ → String
  | .publish queueName _ => queueName
  | .consume queueName => queueName
  | .ack queueName _ => queueName

/-- Serving a request, with the readings of the clock that a publish and a consume take. -/
def Request.action (timeNs : ℕ) (time : ℚ) : Request δ → Action δ
  | .publish queueName message => .publish queueName message timeNs time
  | .consume queueName => .consume queueName time
  | .ack queueName messageId => .ack queueName messageId

namespace QueueCluster

/-- A node takes a step. -/
def act (D : Deployment δ) (s : QueueCluster δ) (n : String) (a : Action δ) :
    Option (QueueCluster δ) :=
  (QueueNode.step (D.config n) (s.services n) a).map fun service =>
    { s with services := Function.update s.services n service }

/-- A node does with a request what its handler says. -/
def handled (D : Deployment δ) (s : QueueCluster δ) (n : String) (timeNs : ℕ) (time : ℚ) :
    Handling δ → Option (QueueCluster δ)
  | .answer _ => some s
  | .serve request => s.act D n (request.action timeNs time)
  | .send target request => some { s with sent := s.sent ++ [(target, request)] }

end QueueCluster

/-- **One step of the cluster.** -/
def clusterStep (D : Deployment δ) (s : QueueCluster δ) :
    ClusterAction δ → Option (QueueCluster δ)
  | .client n request timeNs time =>
      if n ∈ D.members then s.handled D n timeNs time ((D.router n).handle request) else none
  | .internal i timeNs time =>
      match s.sent[i]? with
      | some (some target, request) =>
          if target ∈ D.members then
            { s with sent := s.sent.eraseIdx i }.handled D target timeNs time
              ((D.router target).handleInternal request)
          else none
      | _ => none
  | .node n a => if n ∈ D.members ∧ a.request?.isNone = true then s.act D n a else none

/-- All nodes after they have read their logs. -/
def Deployment.opened (D : Deployment δ) : QueueCluster δ where
  services := fun n => QueueNode.opened (D.wal n)
  sent := []

/-! ### Owners -/

variable {D : Deployment δ} {n : String}

/-- The rings of the nodes agree. -/
theorem Deployment.getNode_ring (hn : n ∈ D.members) (queueName : String) :
    (D.router n).ring.getNode queueName = D.owner queueName :=
  (getNode_congr (fun id => (D.ids n hn id).symm) D.injOn queueName).symm

theorem Deployment.exists_owner (D : Deployment δ) (queueName : String) :
    ∃ owner ∈ D.members, D.owner queueName = some owner := by
  obtain ⟨owner, hmem, -, -, -, hget⟩ :=
    @exists_getNode ⟨100, ∅, []⟩ D.members D.injOn D.nonempty (Nat.zero_lt_succ _) queueName
  exact ⟨owner, hmem, hget⟩

/-- **What a node does with a request**: it refuses it, serves it as the owner of its queue, or
sends it on to the owner, which then serves it. -/
theorem Router.handle_cases (node : Router) (request : Request δ) :
    (∃ response, node.handle request = .answer response) ∨
    (node.ring.getNode request.queueName = some node.nodeId ∧
      node.handle request = .serve request) ∨
    (node.handle request = .send (node.ring.getNode request.queueName) request ∧
      ∀ node' : Router, node'.ring.getNode request.queueName = some node'.nodeId →
        node'.handleInternal request = .serve request) := by
  have hroute : ∀ queueName, (node.ring.getNode queueName = some node.nodeId ∧
      node.route queueName request = .serve request) ∨
      node.route queueName request = .send (node.ring.getNode queueName) request := by
    intro queueName
    by_cases howner : node.ring.getNode queueName = some node.nodeId
    · exact .inl ⟨howner, route_of_owner request howner⟩
    · exact .inr (if_neg howner)
  cases request with
  | publish queueName message =>
      by_cases hbad : queueName = "" ∨ message.isNone = true
      · exact .inl ⟨_, if_pos hbad⟩
      · refine .inr ?_
        have hhandle : ∀ node' : Router, node'.handlePublish queueName message =
            node'.route queueName (.publish queueName message) := fun _ => if_neg hbad
        rcases hroute queueName with ⟨howner, hserve⟩ | hsend
        · exact .inl ⟨howner, (hhandle node).trans hserve⟩
        · exact .inr ⟨(hhandle node).trans hsend, fun node' howner =>
            (hhandle node').trans (route_of_owner _ howner)⟩
  | consume queueName =>
      by_cases hbad : queueName = ""
      · exact .inl ⟨_, if_pos hbad⟩
      · refine .inr ?_
        rcases hroute queueName with ⟨howner, hserve⟩ | hsend
        · exact .inl ⟨howner, (if_neg hbad).trans hserve⟩
        · exact .inr ⟨(if_neg hbad).trans hsend, fun _ _ => rfl⟩
  | ack queueName messageId =>
      by_cases hbad : queueName = "" ∨ messageId = ""
      · exact .inl ⟨_, if_pos hbad⟩
      · refine .inr ?_
        have hhandle : ∀ node' : Router, (node'.handleAck queueName messageId : Handling δ) =
            node'.route queueName (.ack queueName messageId) := fun _ => if_neg hbad
        rcases hroute queueName with ⟨howner, hserve⟩ | hsend
        · exact .inl ⟨howner, (hhandle node).trans hserve⟩
        · exact .inr ⟨(hhandle node).trans hsend, fun node' howner =>
            (hhandle node').trans (route_of_owner _ howner)⟩

/-! ### What a node has of other queues -/

/-- Everything that a service has got is for queues of `own`. -/
structure Owned (own : String → Prop) (wal : List (WalEntry δ)) (s : Service δ) : Prop where
  entered : ∀ spot ∈ entered wal s, own spot.1
  writer : ∀ msg, .publish msg ∈ s.node.writers → own msg.queue
  log : ∀ m ∈ enqueued s.node.wal, own m.queue

section Owned

variable {own : String → Prop} {wal : List (WalEntry δ)} {s s' : Service δ} {config : Config}
  {a : Action δ}

theorem Owned.answer (h : Owned own wal s) {request : Request δ} {response : Response δ}
    (hnone : enqueuedBy (request, response) = none) :
    Owned own wal (s.answer request response) where
  entered := by
    rw [entered_answer, hnone, Option.toList_none, List.append_nil]
    exact h.entered
  writer := h.writer
  log := h.log

/-- What leaves the handlers that write and the log as they are brings no message. -/
theorem Owned.of_frame (h : Owned own wal s) {node : DistributedQueueNode δ}
    (hwriters : node.writers = s.node.writers) (hwal : node.wal = s.node.wal) :
    Owned own wal { s with node := node } where
  entered := h.entered
  writer := fun msg hmsg => h.writer msg (hwriters ▸ hmsg)
  log := fun m hm => h.log m (hwal ▸ hm)

/-- **A node only gets messages of its queues** when it is only asked to publish such messages. -/
theorem Owned.step (h : Owned own wal s) (hmove : Moves config s a s')
    (ha : ∀ queueName message timeNs time, a = .publish queueName message timeNs time →
      own queueName) : Owned own wal s' := by
  cases hmove with
  | @refuse _ request hrequest error status => exact h.answer (by cases request <;> rfl)
  | publish hname =>
      refine ⟨h.entered, fun msg hmsg => ?_, h.log⟩
      rcases List.mem_append.1 hmsg with hold | hnew
      · exact h.writer msg hold
      · cases List.mem_singleton.1 hnew
        exact ha _ _ _ _ rfl
  | @empty queueName time hempty =>
      obtain ⟨hwriters, -, -, hwal⟩ := localDequeue_frame config s.node queueName time
      exact (h.of_frame hwriters hwal).answer rfl
  | @consume queueName time msg rest hqueue =>
      obtain ⟨hwriters, -, -, hwal⟩ := localDequeue_frame config s.node queueName time
      exact (h.of_frame hwriters hwal).answer rfl
  | ack hfound =>
      refine ⟨h.entered, fun msg hmsg => ?_, h.log⟩
      rcases List.mem_append.1 hmsg with hold | hnew
      · exact h.writer msg hold
      · cases List.mem_singleton.1 hnew
  | @notFound queueName messageId hfound =>
      have hframe : Owned own wal { s with node := { s.node with
          processing := s.node.processing.setdefault queueName ∅ } } := h.of_frame rfl rfl
      exact hframe.answer rfl
  | @requeue now hrecovery =>
      obtain ⟨hwriters, -, -, hwal⟩ := requeueExpired_frame s.node now
      exact h.of_frame hwriters hwal
  | @walWrite writer rest hwriters happended =>
      refine ⟨h.entered, h.writer, fun m hm => ?_⟩
      cases writer with
      | publish msg =>
          simp only [Writer.entry, enqueued_snoc_enqueue] at hm
          rcases List.mem_append.1 hm with hold | hnew
          · exact h.log m hold
          · obtain rfl := List.mem_singleton.1 hnew
            exact h.writer m (hwriters ▸ List.mem_cons_self)
      | ack queueName messageId =>
          simp only [Writer.entry, enqueued, List.filterMap_append] at hm
          simp only [List.filterMap_cons, WalEntry.payload?, List.filterMap_nil,
            List.append_nil] at hm
          exact h.log m hm
  | walFail => exact h.of_frame rfl rfl
  | @walDone writer rest hwriters happended =>
      obtain ⟨hwriters', -, -, hwal⟩ :=
        complete_frame { s.node with writers := rest, appended := false } writer
      refine ⟨?_, fun msg hmsg => h.writer msg ?_, fun m hm => h.log m (hwal ▸ hm)⟩
      · rw [entered_answer]
        intro spot hspot
        rcases List.mem_append.1 hspot with hold | hnew
        · exact h.entered spot hold
        · cases writer with
          | publish msg =>
              obtain rfl := List.mem_singleton.1 hnew
              exact h.writer msg (hwriters ▸ List.mem_cons_self)
          | ack queueName messageId => cases hnew
      · have hmsg' : .publish msg ∈
            (writer.complete { s.node with writers := rest, appended := false }).writers := hmsg
        rw [hwriters'] at hmsg'
        rw [hwriters]
        exact List.mem_cons_of_mem _ hmsg'
  | crash => exact ⟨h.entered, fun _ hmsg => (by cases hmsg), h.log⟩
  | recoverLine => exact h.of_frame rfl rfl
  | recoverEnd => exact h.of_frame rfl rfl
  | recoverFill => exact h.of_frame rfl rfl

end Owned

/-! ### Runs of the cluster -/

/-- Every message gets a new id, and no node crashes. -/
def ClusterFresh (D : Deployment δ) (s : QueueCluster δ) : ClusterAction δ → Prop
  | .client n request timeNs time =>
      FreshIds (D.config n) (s.services n) (request.action timeNs time)
  | .internal i timeNs time =>
      ∀ t ∈ s.sent[i]?, ∀ target ∈ t.1,
        FreshIds (D.config target) (s.services target) (t.2.action timeNs time)
  | .node n a => FreshIds (D.config n) (s.services n) a

instance decidableClusterFresh (D : Deployment δ) (s : QueueCluster δ) :
    DecidablePred (ClusterFresh D s)
  | .client n _ _ _ => inferInstanceAs (Decidable (FreshIds (D.config n) (s.services n) _))
  | .internal i _ _ => inferInstanceAs (Decidable (∀ _ ∈ s.sent[i]?, _))
  | .node n _ => inferInstanceAs (Decidable (FreshIds (D.config n) (s.services n) _))

/-- A request that was sent on is for the owner of its queue, which serves it. -/
def Routed (D : Deployment δ) (t : Option String × Request δ) : Prop :=
  ∃ owner ∈ D.members, t.1 = some owner ∧ D.owner t.2.queueName = some owner ∧
    (D.router owner).handleInternal t.2 = .serve t.2

variable {s s' : QueueCluster δ}

/-- Serving a request only publishes to its queue. -/
theorem Request.owner_of_action {request : Request δ} {timeNs timeNs' : ℕ} {time time' : ℚ}
    {queueName : String} {message : Option δ}
    (h : request.action timeNs time = .publish queueName message timeNs' time') :
    request.queueName = queueName := by
  cases request with
  | publish => cases h; rfl
  | consume => cases h
  | ack => cases h

/-- **What a step of the cluster does**, while the requests on their way are for the owners of their
queues: nothing, or it sends one more request to an owner, or one node takes a step, which does not
publish to queues of other nodes. -/
inductive ClusterMoves (D : Deployment δ) (s : QueueCluster δ) (a : ClusterAction δ) :
    QueueCluster δ → Prop
  | refuse : ClusterMoves D s a s
  | send (t : Option String × Request δ) (hrouted : Routed D t) :
      ClusterMoves D s a { s with sent := s.sent ++ [t] }
  | act (n : String) (b : Action δ) (service : Service δ)
      (sent : List (Option String × Request δ)) (hn : n ∈ D.members)
      (hfresh : ClusterFresh D s a → FreshIds (D.config n) (s.services n) b)
      (howner : ∀ queueName message timeNs time, b = .publish queueName message timeNs time →
        D.owner queueName = some n)
      (hstep : QueueNode.step (D.config n) (s.services n) b = some service)
      (hsent : sent ⊆ s.sent) :
      ClusterMoves D s a ⟨Function.update s.services n service, sent⟩

theorem moves_of_clusterStep {a : ClusterAction δ} (hrouted : ∀ t ∈ s.sent, Routed D t)
    (h : clusterStep D s a = some s') : ClusterMoves D s a s' := by
  cases a with
  | client n request timeNs time =>
      simp only [clusterStep, Option.ite_none_right_eq_some] at h
      obtain ⟨hn, h⟩ := h
      rcases (D.router n).handle_cases request with ⟨response, hanswer⟩ | ⟨howner, hserve⟩ |
        ⟨hsend, hinternal⟩
      · rw [hanswer] at h
        cases h
        exact .refuse
      · rw [hserve] at h
        rw [D.getNode_ring hn, D.nodeId n hn] at howner
        obtain ⟨service, hstep, rfl⟩ := Option.map_eq_some_iff.1 h
        exact .act n _ service _ hn id
          (fun _ _ _ _ heq => Request.owner_of_action heq ▸ howner) hstep (List.Subset.refl _)
      · rw [hsend, D.getNode_ring hn] at h
        cases h
        obtain ⟨owner, hmem, howner⟩ := D.exists_owner request.queueName
        refine .send _ ⟨owner, hmem, howner, howner, hinternal _ ?_⟩
        rw [D.getNode_ring hmem, D.nodeId owner hmem, howner]
  | internal i timeNs time =>
      simp only [clusterStep] at h
      split at h
      · next target request hget =>
          simp only [Option.ite_none_right_eq_some] at h
          obtain ⟨hn, h⟩ := h
          obtain ⟨owner, -, htarget, howner, hserve⟩ := hrouted _ (List.mem_of_getElem? hget)
          obtain rfl := Option.some.inj htarget
          rw [hserve] at h
          obtain ⟨service, hstep, rfl⟩ := Option.map_eq_some_iff.1 h
          exact .act target _ service _ hn (fun hok => hok _ hget target rfl)
            (fun _ _ _ _ heq => Request.owner_of_action heq ▸ howner) hstep
            fun _ => List.mem_of_mem_eraseIdx
      · cases h
  | node n a =>
      simp only [clusterStep, Option.ite_none_right_eq_some] at h
      obtain ⟨⟨hn, hown⟩, h⟩ := h
      obtain ⟨service, hstep, rfl⟩ := Option.map_eq_some_iff.1 h
      refine .act n a service _ hn id (fun queueName message timeNs time heq => ?_) hstep
        (List.Subset.refl _)
      rw [heq] at hown
      cases hown

/-- What a node goes through is a run of its service, and it has messages of its own queues only. -/
structure ClusterInv (D : Deployment δ) (s : QueueCluster δ) : Prop where
  run : ∀ n ∈ D.members, Run (QueueNode.step (D.config n)) (FreshIds (D.config n))
    (QueueNode.opened (D.wal n)) (s.services n)
  owned : ∀ n ∈ D.members, Owned (fun queueName => D.owner queueName = some n) (D.wal n)
    (s.services n)
  routed : ∀ t ∈ s.sent, Routed D t

theorem ClusterInv.step (hI : ClusterInv D s) {a : ClusterAction δ} (hok : ClusterFresh D s a)
    (h : clusterStep D s a = some s') : ClusterInv D s' := by
  cases moves_of_clusterStep hI.routed h with
  | refuse => exact hI
  | send t hrouted =>
      refine ⟨hI.run, hI.owned, fun t' ht => ?_⟩
      rcases List.mem_append.1 ht with hold | hnew
      · exact hI.routed t' hold
      · rwa [List.mem_singleton.1 hnew]
  | act n b service sent hn hfresh howner hstep hsent =>
      refine ⟨fun m hm => ?_, fun m hm => ?_, fun t ht => hI.routed t (hsent ht)⟩
      · by_cases hmn : m = n
        · subst hmn
          simp only [Function.update_self]
          exact (hI.run m hm).tail (hfresh hok) hstep
        · simp only [Function.update_of_ne hmn]
          exact hI.run m hm
      · by_cases hmn : m = n
        · subst hmn
          simp only [Function.update_self]
          exact (hI.owned m hm).step (moves_of_step hstep) howner
        · simp only [Function.update_of_ne hmn]
          exact hI.owned m hm

/-- A log with messages of the queues of the node only. -/
theorem owned_opened {own : String → Prop} {wal : List (WalEntry δ)}
    (howned : ∀ m ∈ enqueued wal, own m.queue) : Owned own wal (QueueNode.opened wal) where
  entered := by
    intro spot hspot
    simp only [entered, QueueNode.opened, List.filterMap_nil, List.append_nil] at hspot
    obtain ⟨m, hm, rfl⟩ := List.mem_map.1 hspot
    exact howned m (List.mem_filter.1 hm).1
  writer := fun _ hmsg => by cases hmsg
  log := howned

/-- **What a node of the cluster goes through is a run of its service.** -/
theorem run_of_cluster
    (howned : ∀ n ∈ D.members, ∀ m ∈ enqueued (D.wal n), D.owner m.queue = some n)
    (h : Run (clusterStep D) (ClusterFresh D) D.opened s) : ClusterInv D s :=
  h.invariant (fun _ _ _ hI hok hstep => hI.step hok hstep)
    ⟨fun _ _ => .refl _, fun n hn => owned_opened (howned n hn), fun _ ht => (by cases ht)⟩

/-- A node that does not own a queue has nothing of it. -/
theorem Owned.nothing {own : String → Prop} {wal : List (WalEntry δ)} {s : Service δ}
    (h : Owned own wal s) (hC : Conserved wal s) {queueName : String} (hI : InOrder wal queueName s)
    (hnot : ¬ own queueName) :
    (∀ place ∈ located s.node, place.1 ≠ queueName) ∧ deliveries queueName s = [] ∧
      idsOf queueName (QueueNode.entered wal s) = [] := by
  have hentered : idsOf queueName (QueueNode.entered wal s) = [] :=
    List.eq_nil_iff_forall_not_mem.2 fun id hid => hnot (h.entered _ (mem_idsOf.1 hid))
  refine ⟨fun place hplace hname => hnot ?_, ?_, hentered⟩
  · obtain ⟨out, -, hperm⟩ := hC.conserved
    have hspot : spot place ∈ QueueNode.entered wal s :=
      hperm.subset (List.mem_append_left _ (List.mem_map_of_mem hplace))
    exact hname ▸ h.entered _ hspot
  · refine List.eq_nil_iff_forall_not_mem.2 fun id hid => ?_
    have hfirst : id ∈ idsOf queueName (QueueNode.entered wal s) := by
      rw [hI.order]
      exact List.mem_append_left _ (List.mem_eraseDups.2 hid)
    rw [hentered] at hfirst
    cases hfirst

/-- **A queue is one first-in first-out queue at its owner, and is nowhere else.**  Whichever nodes
the clients talk to, and whatever of the requests between the nodes is late or lost: the owner hands
out the messages of the queue in the order of their publishes, the other nodes neither hold nor
deliver any of them nor have a line of them in their logs, and a request for the queue that was sent
on is for the owner, which serves it. -/
theorem oneQueue (hids : ∀ n ∈ D.members, ((enqueued (D.wal n)).map Message.id).Nodup)
    (howned : ∀ n ∈ D.members, ∀ m ∈ enqueued (D.wal n), D.owner m.queue = some n)
    (h : Run (clusterStep D) (ClusterFresh D) D.opened s) (queueName : String) :
    ∃ owner ∈ D.members, D.owner queueName = some owner ∧
      idsOf queueName (entered (D.wal owner) (s.services owner)) =
        (deliveries queueName (s.services owner)).eraseDups ++
          ((queueOf (s.services owner).node.queues queueName).map Message.id).filter
            (· ∉ deliveries queueName (s.services owner)) ∧
      (∀ n ∈ D.members, n ≠ owner →
        (∀ place ∈ located (s.services n).node, place.1 ≠ queueName) ∧
        deliveries queueName (s.services n) = [] ∧
        idsOf queueName (entered (D.wal n) (s.services n)) = [] ∧
        ∀ m ∈ enqueued (s.services n).node.wal, m.queue ≠ queueName) ∧
      ∀ t ∈ s.sent, t.2.queueName = queueName →
        t.1 = some owner ∧ (D.router owner).handleInternal t.2 = .serve t.2 := by
  have hI := run_of_cluster howned h
  have hnode : ∀ n ∈ D.members, Conserved (D.wal n) (s.services n) ∧
      InOrder (D.wal n) queueName (s.services n) := fun n hn =>
    (hI.run n hn).invariant
      (I := fun s => Conserved (D.wal n) s ∧ InOrder (D.wal n) queueName s)
      (fun _ _ _ hI hok hstep => ⟨hI.1.step hok (moves_of_step hstep),
        hI.2.step hI.1 hok (moves_of_step hstep)⟩)
      ⟨conserved_opened (hids n hn), inOrder_opened (hids n hn) queueName⟩
  obtain ⟨owner, hmem, howner⟩ := D.exists_owner queueName
  refine ⟨owner, hmem, howner, (hnode owner hmem).2.order, fun n hn hne => ?_, fun t ht hname => ?_⟩
  · have hother : ¬ D.owner queueName = some n := fun heq =>
      hne (Option.some.inj (heq.symm.trans howner))
    obtain ⟨hlocated, hdeliveries, hentered⟩ :=
      (hI.owned n hn).nothing (hnode n hn).1 (hnode n hn).2 hother
    exact ⟨hlocated, hdeliveries, hentered, fun m hm heq =>
      hother (heq ▸ (hI.owned n hn).log m hm)⟩
  · obtain ⟨target, -, htarget, howner', hserve⟩ := hI.routed t ht
    rw [hname, howner] at howner'
    obtain rfl := Option.some.inj howner'
    exact ⟨htarget, hserve⟩

/-! ### Two nodes -/

/-- The two nodes that know each other, with empty logs. -/
def pair : Deployment ℕ where
  members := ["queue-1", "queue-2"]
  nonempty := List.cons_ne_nil _ _
  router := fun n => if n = "queue-1" then firstNode else secondNode
  config := fun n => ⟨n, 30⟩
  wal := fun _ => []
  nodeId := by decide
  ids := by
    intro n hn id
    simp only [List.mem_cons, List.not_mem_nil, or_false] at hn
    rcases hn with rfl | rfl
    · simp [firstNode, Router.ids]
    · simp [secondNode, Router.ids]
      tauto
  injOn := injOn_hash_firstNode

/-- Of two nodes, one owns a queue and the other does not. -/
theorem pair_cases (queueName : String) : ∃ owner other, owner ∈ pair.members ∧
    other ∈ pair.members ∧ other ≠ owner ∧ pair.owner queueName = some owner := by
  obtain ⟨owner, hmem, howner⟩ := pair.exists_owner queueName
  by_cases heq : owner = "queue-1"
  · exact ⟨owner, "queue-2", hmem, by decide, heq ▸ by decide, howner⟩
  · exact ⟨owner, "queue-1", hmem, by decide, Ne.symm heq, howner⟩

/-- A message is published through the node that does not own its queue. -/
theorem oneQueue_throughOther : ∃ (s : QueueCluster ℕ) (owner other : String),
    Run (clusterStep pair) (ClusterFresh pair) pair.opened s ∧ other ≠ owner ∧
    ((s.services owner).node.writers.map Writer.request) = [.publish "orders" (some 7)] ∧
    ∀ place ∈ located (s.services other).node, place.1 ≠ "orders" := by
  obtain ⟨owner, other, hmem, hother, hne, howner⟩ := pair_cases "orders"
  have hroute : (pair.router other).handle (.publish "orders" (some 7)) =
      .send (some owner) (.publish "orders" (some 7)) := by
    have hring : (pair.router other).ring.getNode "orders" = some owner := by
      rw [pair.getNode_ring hother, howner]
    have hself : some owner ≠ some (pair.router other).nodeId := by
      rw [pair.nodeId other hother]
      exact fun heq => hne (Option.some.inj heq).symm
    simp only [Router.handle, Router.handlePublish, Router.route, hring]
    rw [if_neg (by decide), if_neg hself]
  have hsend : clusterStep pair pair.opened (.client other (.publish "orders" (some 7)) 1 0) =
      some { pair.opened with sent := [(some owner, .publish "orders" (some 7))] } := by
    rw [clusterStep, if_pos hother, hroute]
    rfl
  have hserve : (pair.router owner).handleInternal (.publish "orders" (some 7)) =
      .serve (.publish "orders" (some 7)) := by
    have hring : (pair.router owner).ring.getNode "orders" = some (pair.router owner).nodeId := by
      rw [pair.getNode_ring hmem, pair.nodeId owner hmem, howner]
    simp only [Router.handleInternal, Router.handlePublish]
    rw [if_neg (by decide)]
    exact Router.route_of_owner _ hring
  set service : Service ℕ := { QueueNode.opened [] with
    node := { (QueueNode.opened []).node with
      writers := [.publish ⟨messageId (pair.config owner) 1, "orders", 7, 0, none⟩] }
    minted := [messageId (pair.config owner) 1] } with hservice
  have harrive : clusterStep pair
      { pair.opened with sent := [(some owner, .publish "orders" (some 7))] } (.internal 0 1 0) =
      some { services := Function.update pair.opened.services owner service, sent := [] } := by
    simp only [clusterStep, List.getElem?_cons_zero]
    rw [if_pos hmem, hserve]
    rfl
  have hrun : Run (clusterStep pair) (ClusterFresh pair) pair.opened
      { services := Function.update pair.opened.services owner service, sent := [] } := by
    refine (Run.single (a := .client other (.publish "orders" (some 7)) 1 0) ?_ hsend).tail
      (a := .internal 0 1 0) ?_ harrive
    · exact List.not_mem_nil
    · intro t ht target htarget
      obtain rfl := Option.some.inj ht
      exact List.not_mem_nil
  refine ⟨_, owner, other, hrun, hne, ?_, ?_⟩
  · simp only [Function.update_self]
    rfl
  · obtain ⟨owner', -, howner', -, hothers, -⟩ := oneQueue (D := pair)
      (fun _ _ => List.nodup_nil) (fun _ _ _ hm => by cases hm) hrun "orders"
    obtain rfl := Option.some.inj (howner.symm.trans howner')
    exact (hothers other hother hne).1

end QueueNode
