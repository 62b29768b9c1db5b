/-
**Which node serves a queue.**

A request for a queue may come to any queue node.  The node asks its ring for the owner of the
queue; it serves the request itself when this is its own id, and otherwise sends it to an internal
endpoint of the owner.  Two of the three internal endpoints are the public handlers again, so a node
that saw another owner would send the request on; that nodes with the same ids see the same owner is
what ends this after one hop.

Main definitions:

* `QueueNode.Router` — a node with the ids and addresses of its peers;
* `QueueNode.Router.handle`, `QueueNode.Router.handleInternal` — what becomes of a request.

Main results:

* `QueueNode.ownerAgreement` — **nodes with the same ids agree on the owner, and a request that is
  sent on is served by the node that it is sent to**.
-/

import DistSync.ConsistentHashRing
import DistSync.QueueNode
import Mathlib.Tactic.Tauto

set_option relaxedAutoImplicit false
set_option autoImplicit false

namespace QueueNode

open ConsistentHashRing

variable {δ : Type*}

/-- A peer, as in the configuration. -/
structure PeerInfo where
  nodeId : String
  url : String
deriving DecidableEq

/-- A queue node, as far as routing is concerned: its id and its peers. -/
structure Router where
  nodeId : String
  peers : List PeerInfo

namespace Router

/-- The ids from which the ring is built. -/
def ids (node : Router) : List String := node.nodeId :: node.peers.map PeerInfo.nodeId

/-- `self.ring`. -/
def ring (node : Router) : ConsistentHashRing := init node.ids

/-- `self.message_bus.peers`. -/
def busPeers (node : Router) : Dict String PeerInfo :=
  node.peers.foldl (fun peers peer => peers.set peer.nodeId peer) ∅

end Router

/-- What a handler does with a request: it answers at once, serves it with the local queue, or sends
it to an internal endpoint of another node. -/
inductive Handling (δ : Type*)
  | answer (response : Response δ)
  | serve (request : Request δ)
  | send (target : Option String) (request : Request δ)

namespace Router

/-- The last part of the handlers: the owner serves the request. -/
def route (node : Router) (queueName : String) (request : Request δ) : Handling δ :=
  let targetNode := node.ring.getNode queueName
  if targetNode = some node.nodeId then .serve request else .send targetNode request

/-- `handle_publish`. -/
def handlePublish (node : Router) (queueName : String) (message : Option δ) : Handling δ :=
  if queueName = "" ∨ message.isNone = true then .answer (.error "missing_fields" 400)
  else node.route queueName (.publish queueName message)

/-- `handle_consume`. -/
def handleConsume (node : Router) (queueName : String) : Handling δ :=
  if queueName = "" then .answer (.error "missing_queue" 400)
  else node.route queueName (.consume queueName)

/-- `handle_ack`. -/
def handleAck (node : Router) (queueName messageId : String) : Handling δ :=
  if queueName = "" ∨ messageId = "" then .answer (.error "missing_fields" 400)
  else node.route queueName (.ack queueName messageId)

/-- The public endpoints. -/
def handle (node : Router) : Request δ → Handling δ
  | .publish queueName message => node.handlePublish queueName message
  | .consume queueName => node.handleConsume queueName
  | .ack queueName messageId => node.handleAck queueName messageId

/-- The internal endpoints: `handle_internal_enqueue` and `handle_internal_ack` are the public
handlers, `handle_internal_dequeue` does not ask the ring. -/
def handleInternal (node : Router) : Request δ → Handling δ
  | .publish queueName message => node.handlePublish queueName message
  | .consume queueName => .serve (.consume queueName)
  | .ack queueName messageId => node.handleAck queueName messageId

/-! ### Requests that are sent on -/

theorem isSome_foldl_set (peers : List PeerInfo) (d : Dict String PeerInfo) (id : String) :
    ((peers.foldl (fun d peer => d.set peer.nodeId peer) d).get? id).isSome = true ↔
      id ∈ peers.map PeerInfo.nodeId ∨ (d.get? id).isSome = true := by
  induction peers generalizing d with
  | nil => simp
  | cons peer peers ih =>
      rw [List.foldl_cons, ih, Dict.get?_set, List.map_cons, List.mem_cons]
      by_cases hid : id = peer.nodeId <;> simp [hid]

/-- The bus knows the peers of the configuration. -/
theorem isSome_busPeers {node : Router} {id : String} :
    (node.busPeers.get? id).isSome = true ↔ id ∈ node.peers.map PeerInfo.nodeId := by
  rw [busPeers, isSome_foldl_set]
  simp

/-- What is sent on is the request itself, to another node that owns the queue. -/
theorem send_route {node : Router} {queueName : String} {request payload : Request δ}
    {target : Option String} (h : node.route queueName request = .send target payload) :
    payload = request ∧ target = node.ring.getNode queueName ∧ target ≠ some node.nodeId := by
  unfold route at h
  simp only at h
  split at h
  · cases h
  · next hne =>
      cases h
      exact ⟨rfl, rfl, hne⟩

theorem route_of_owner {node : Router} {queueName : String} (request : Request δ)
    (h : node.ring.getNode queueName = some node.nodeId) :
    node.route queueName request = .serve request := if_pos h

/-- A request that is sent on is complete, and goes to the owner of its queue.  The owner serves it,
if it is the owner in its own ring too. -/
theorem send_handle {node : Router} {request payload : Request δ} {target : Option String}
    (h : node.handle request = .send target payload) :
    ∃ queueName, target = node.ring.getNode queueName ∧ target ≠ some node.nodeId ∧
      ∀ node' : Router, node'.ring.getNode queueName = some node'.nodeId →
        node'.handleInternal payload = .serve payload := by
  cases request with
  | publish queueName message =>
      simp only [handle, handlePublish] at h
      split at h
      · cases h
      · next hcomplete =>
          obtain ⟨rfl, htarget, hother⟩ := send_route h
          refine ⟨queueName, htarget, hother, fun node' howner => ?_⟩
          rw [handleInternal, handlePublish, if_neg hcomplete]
          exact route_of_owner _ howner
  | consume queueName =>
      simp only [handle, handleConsume] at h
      split at h
      · cases h
      · obtain ⟨rfl, htarget, hother⟩ := send_route h
        exact ⟨queueName, htarget, hother, fun node' _ => rfl⟩
  | ack queueName messageId =>
      simp only [handle, handleAck] at h
      split at h
      · cases h
      · next hcomplete =>
          obtain ⟨rfl, htarget, hother⟩ := send_route h
          refine ⟨queueName, htarget, hother, fun node' howner => ?_⟩
          rw [handleInternal, handleAck, if_neg hcomplete]
          exact route_of_owner _ howner

end Router

/-- **Nodes with the same ids agree on the owner of every queue, and a request that is sent on is
served by the node that it is sent to.** -/
theorem ownerAgreement (sender receiver : Router)
    (hids : ∀ id, id ∈ sender.ids ↔ id ∈ receiver.ids)
    (hinj : Set.InjOn ConsistentHashRing.hash (pointsOf sender.ids 100)) :
    (∀ queueName, sender.ring.getNode queueName = receiver.ring.getNode queueName) ∧
    ∀ (request payload : Request δ) (target : Option String),
      sender.handle request = .send target payload →
      ∃ id, target = some id ∧ (sender.busPeers.get? id).isSome = true ∧
        (id = receiver.nodeId → receiver.handleInternal payload = .serve payload) := by
  have hagree : ∀ queueName, sender.ring.getNode queueName = receiver.ring.getNode queueName :=
    fun queueName => getNode_congr hids hinj queueName
  refine ⟨hagree, fun request payload target hsend => ?_⟩
  obtain ⟨queueName, htarget, hother, hserve⟩ := Router.send_handle hsend
  obtain ⟨id, hid, -, -, -, hget⟩ := @exists_getNode ⟨100, ∅, []⟩ sender.ids hinj
    (List.cons_ne_nil _ _) (Nat.zero_lt_succ _) queueName
  have hget : sender.ring.getNode queueName = some id := hget
  refine ⟨id, htarget.trans hget, Router.isSome_busPeers.2 ?_, fun hreceiver => hserve receiver ?_⟩
  · -- the owner is not the sender itself
    refine (List.mem_cons.1 hid).resolve_left fun hself => hother ?_
    rw [htarget, hget, hself]
  · rw [← hagree, hget, hreceiver]

/-- Two nodes that know each other; the second one is in its own list too. -/
def firstNode : Router := ⟨"queue-1", [⟨"queue-2", "http://queue-2:8000"⟩]⟩

def secondNode : Router :=
  ⟨"queue-2", [⟨"queue-2", "http://queue-2:8000"⟩, ⟨"queue-1", "http://queue-1:8000"⟩]⟩

/-- A test that the numbers of a list are different. -/
def distinct : List ℕ → Bool
  | [] => true
  | n :: l => l.all (fun m => !Nat.beq n m) && distinct l

theorem nodup_of_distinct {l : List ℕ} (h : distinct l = true) : l.Nodup := by
  induction l with
  | nil => exact List.nodup_nil
  | cons n l ih =>
      rw [distinct, Bool.and_eq_true, List.all_eq_true] at h
      refine List.nodup_cons.2 ⟨fun hmem => ?_, ih h.2⟩
      have hself := h.1 n hmem
      rw [Nat.beq_refl] at hself
      cases hself

/-- The hashes of the points of the two nodes are different. -/
theorem injOn_hash_firstNode : Set.InjOn ConsistentHashRing.hash (pointsOf firstNode.ids 100) :=
  ConsistentHashRing.injOn_hash_of_nodup (nodup_of_distinct (by decide +kernel))

theorem ownerAgreement_firstNode :
    firstNode.ring.getNode "orders" = secondNode.ring.getNode "orders" ∧
      secondNode.ids.length = 3 := by
  refine ⟨(@ownerAgreement ℕ firstNode secondNode (fun id => ?_) injOn_hash_firstNode).1 "orders",
    rfl⟩
  simp only [firstNode, secondNode, Router.ids, List.map_cons, List.map_nil, List.mem_cons,
    List.not_mem_nil, or_false]
  tauto

end QueueNode
