/-
**First published, first delivered.**

A deque is filled at its end, by publishes and by the sweeps that put expired messages back, and
emptied at its head.  So messages come out of a queue in the order in which they went in, and a
message that a sweep puts back has been delivered before.  What clients see of this is in their
answers alone: counting only the first delivery of each message, a queue hands its messages out in
the order in which their publishes were answered, and leaves none out.

Main definitions:

* `QueueNode.deliveries` — the ids that were delivered from a queue;
* `QueueNode.InOrder` — **the messages of a queue are those delivered and those still to be
  delivered for the first time, in this order**.

Main results:

* `QueueNode.queueOf_requeueExpired` — what a sweep appends to a deque;
* `QueueNode.firstInFirstOut` — **first deliveries are in the order of the publishes**.
-/

import DistSync.FirstOccurrences
import DistSync.QueueLeases

set_option relaxedAutoImplicit false
set_option autoImplicit false

namespace QueueNode

open Runs

variable {δ : Type*}

/-! ### What clients see of a queue -/

/-- The queue and the id of a message that was delivered. -/
def deliveredBy : Request δ × Response δ → Option (String × String)
  | (.consume name, .message id _ _) => some (name, id)
  | _ => none

/-- The ids in a list of queue names and ids that belong to one queue. -/
def idsOf (name : String) (spots : List (String × String)) : List String :=
  (spots.filter (·.1 = name)).map Prod.snd

/-- The ids of the messages that were delivered from a queue, with their redeliveries. -/
def deliveries (name : String) (s : Service δ) : List String :=
  idsOf name (s.answers.filterMap deliveredBy)

theorem idsOf_append (name : String) (spots spots' : List (String × String)) :
    idsOf name (spots ++ spots') = idsOf name spots ++ idsOf name spots' := by
  rw [idsOf, List.filter_append, List.map_append]
  rfl

theorem mem_idsOf {name id : String} {spots : List (String × String)} :
    id ∈ idsOf name spots ↔ (name, id) ∈ spots := by
  simp [idsOf]

theorem deliveries_answer (name : String) (s : Service δ) (request : Request δ)
    (response : Response δ) :
    deliveries name (s.answer request response) =
      deliveries name s ++ idsOf name (deliveredBy (request, response)).toList := by
  rw [deliveries, Service.answer, List.filterMap_append, idsOf_append]
  rfl

/-! ### Sweeps -/

section Sweeps

variable {node : DistributedQueueNode δ} {name : String}

/-- Putting messages back appends them to their deque. -/
theorem queueOf_requeueMessages (queueName : String) (msgs : List (Message δ)) :
    queueOf (msgs.foldl (requeueMessage queueName) node).queues name =
      queueOf node.queues name ++
        if name = queueName then msgs.map fun msg => { msg with visibilityTimeout := none }
        else [] := by
  induction msgs generalizing node with
  | nil => simp
  | cons msg msgs ih =>
      rw [List.foldl_cons, ih, requeueMessage, queueOf_pushBack]
      by_cases hname : name = queueName
      · subst hname
        simp
      · simp [hname]

/-- **A sweep appends messages that were in flight to a deque.** -/
theorem queueOf_requeueExpired (node : DistributedQueueNode δ) (name : String) (now : ℚ) :
    ∃ back : List (Message δ),
      queueOf (requeueExpired now node).queues name = queueOf node.queues name ++ back ∧
      ∀ m ∈ back, ∃ id msg, (inFlight node.processing name).get? id = some msg ∧ m.id = msg.id := by
  have hloop : ∀ (entries : List (String × Dict String (Message δ)))
      (node : DistributedQueueNode δ), ∃ back : List (Message δ),
      queueOf (entries.foldl (fun node e =>
        (expired now e.2).foldl (requeueMessage e.1) node) node).queues name =
          queueOf node.queues name ++ back ∧
      ∀ m ∈ back, ∃ e ∈ entries, e.1 = name ∧ ∃ msg ∈ expired now e.2, m.id = msg.id := by
    intro entries
    induction entries with
    | nil => exact fun node => ⟨[], (List.append_nil _).symm, fun m hm => by cases hm⟩
    | cons entry entries ih =>
        intro node
        obtain ⟨back, hback, hfrom⟩ :=
          ih ((expired now entry.2).foldl (requeueMessage entry.1) node)
        rw [queueOf_requeueMessages, List.append_assoc] at hback
        refine ⟨_, hback, fun m hm => ?_⟩
        rcases List.mem_append.1 hm with hm | hm
        · split at hm
          · next hname =>
              obtain ⟨msg, hmsg, rfl⟩ := List.mem_map.1 hm
              exact ⟨entry, List.mem_cons_self, hname.symm, msg, hmsg, rfl⟩
          · cases hm
        · obtain ⟨e, he, hrest⟩ := hfrom m hm
          exact ⟨e, List.mem_cons_of_mem _ he, hrest⟩
  obtain ⟨back, hback, hfrom⟩ := hloop node.processing.entries node
  refine ⟨back, hback, fun m hm => ?_⟩
  obtain ⟨e, he, rfl, msg, hmsg, hid⟩ := hfrom m hm
  obtain ⟨id, hfound⟩ := Dict.mem_values_iff.1 (List.mem_filter.1 hmsg).1
  refine ⟨id, msg, ?_, hid⟩
  rw [inFlight, Dict.get?_eq_some_iff.2 he]
  exact hfound

end Sweeps

/-! ### The order of a queue -/

/-- **The messages of a queue, in the order in which they came in, are the delivered ones and then
the ones that wait for their first delivery.**  What is in flight has been delivered. -/
structure InOrder (wal : List (WalEntry δ)) (name : String) (s : Service δ) : Prop where
  order : idsOf name (entered wal s) = (deliveries name s).eraseDups ++
    ((queueOf s.node.queues name).map Message.id).filter (· ∉ deliveries name s)
  delivered : ∀ id msg, (inFlight s.node.processing name).get? id = some msg →
    msg.id ∈ deliveries name s

section InOrder

variable {wal : List (WalEntry δ)} {name : String} {s s' : Service δ} {config : Config}
  {a : Action δ}

/-- A step that moves nothing in or out of the queue. -/
theorem InOrder.of_frame (h : InOrder wal name s)
    (hentered : idsOf name (entered wal s') = idsOf name (entered wal s))
    (hdeliveries : deliveries name s' = deliveries name s)
    (hqueue : queueOf s'.node.queues name = queueOf s.node.queues name)
    (hinFlight : ∀ id msg, (inFlight s'.node.processing name).get? id = some msg →
      (inFlight s.node.processing name).get? id = some msg) : InOrder wal name s' where
  order := by rw [hentered, hdeliveries, hqueue, h.order]
  delivered := fun id msg hfound => hdeliveries ▸ h.delivered id msg (hinFlight id msg hfound)

/-- An answer that is about nothing that was enqueued or delivered. -/
theorem InOrder.answer (h : InOrder wal name s) {request : Request δ} {response : Response δ}
    (hentered : enqueuedBy (request, response) = none)
    (hdelivered : deliveredBy (request, response) = none) :
    InOrder wal name (s.answer request response) := by
  refine h.of_frame ?_ ?_ rfl fun _ _ hfound => hfound
  · rw [entered_answer, hentered, Option.toList_none, List.append_nil]
  · rw [deliveries_answer, hdelivered]
    exact List.append_nil _

/-- The ids in a deque are different. -/
theorem Conserved.nodup_queueOf (h : Conserved wal s) (name : String) :
    ((queueOf s.node.queues name).map Message.id).Nodup := by
  have hids := (List.nodup_append.1 h.nodup).1
  have hperm := ((gather_waiting s.node.queues name).append_right
    (Dict.gather underway s.node.processing)).map fun place => place.2.id
  rw [located, hperm.nodup_iff, List.map_append, List.map_append] at hids
  have hwaiting := (List.nodup_append.1 (List.nodup_append.1 hids).1).1
  rw [waiting, List.map_map] at hwaiting
  exact hwaiting

/-- **A consume delivers the head of the deque**, for the first time or not. -/
theorem InOrder.consume (h : InOrder wal name s) (hC : Conserved wal s) {msg : Message δ}
    {rest : List (Message δ)} {time : ℚ}
    (hqueue : queueOf s.node.queues name = msg :: rest) :
    InOrder wal name ({ s with node := (localDequeue config s.node name time).1 }.answer
      (.consume name) (.message msg.id msg.data msg.ts)) := by
  have hnodup := hC.nodup_queueOf name
  rw [hqueue, List.map_cons, List.nodup_cons] at hnodup
  have hdeliveries : deliveries name
      ({ s with node := (localDequeue config s.node name time).1 }.answer (.consume name)
        (.message msg.id msg.data msg.ts)) = deliveries name s ++ [msg.id] := by
    rw [deliveries_answer]
    simp [deliveries, deliveredBy, idsOf]
  have horder := h.order
  rw [hqueue, List.map_cons] at horder
  refine ⟨?_, fun id msg' hfound => ?_⟩
  · rw [hdeliveries, entered_answer, FirstOccurrences.eraseDups_concat]
    simp only [enqueuedBy, Option.toList_none, List.append_nil]
    have hrest : ((queueOf (localDequeue config s.node name time).1.queues name).map Message.id) =
        rest.map Message.id := by
      simp only [localDequeue, hqueue, queueOf_set, if_true]
    have hkeep : (rest.map Message.id).filter (· ∉ deliveries name s ++ [msg.id]) =
        (rest.map Message.id).filter (· ∉ deliveries name s) := by
      refine List.filter_congr fun id hid => ?_
      have hne : id ≠ msg.id := fun heq => hnodup.1 (heq ▸ hid)
      simp [hne]
    have hentered : idsOf name (entered wal { s with node :=
        (localDequeue config s.node name time).1 }) = idsOf name (entered wal s) := rfl
    rw [hentered, horder, Service.answer, hrest, hkeep]
    by_cases hold : msg.id ∈ deliveries name s
    · rw [if_pos hold]
      simp [hold]
    · rw [if_neg hold]
      simp [hold]
  · rw [hdeliveries]
    have hprocessing : (localDequeue config s.node name time).1.processing =
        s.node.processing.set name ((inFlight s.node.processing name).set msg.id
          { msg with visibilityTimeout := some (time + config.visibilityTimeout) }) := by
      simp only [localDequeue, hqueue]
    rw [Service.answer, hprocessing, inFlight_set, if_pos rfl, Dict.get?_set] at hfound
    split at hfound
    · obtain rfl := Option.some.inj hfound
      exact List.mem_append_right _ (List.mem_singleton_self _)
    · exact List.mem_append_left _ (h.delivered id msg' hfound)

/-- A publish whose append is over puts a message into the deque that was not delivered. -/
theorem InOrder.enqueue (h : InOrder wal name s) (hC : Conserved wal s) {msg : Message δ}
    {rest : List (Writer δ)} (hwriters : s.node.writers = .publish msg :: rest) :
    InOrder wal name ({ s with
      node := (Writer.publish msg).complete { s.node with writers := rest, appended := false }
      }.answer (.publish msg.queue (some msg.data)) (.enqueued msg.id)) := by
  by_cases hname : name = msg.queue
  · subst hname
    have hnew : msg.id ∉ deliveries msg.queue s := by
      intro hdelivered
      have hentered : msg.id ∈ idsOf msg.queue (entered wal s) := by
        rw [h.order]
        exact List.mem_append_left _ (List.mem_eraseDups.2 hdelivered)
      refine (List.nodup_append.1 hC.fresh).2.2 msg.id
        (List.mem_map.2 ⟨_, mem_idsOf.1 hentered, rfl⟩) msg.id ?_ rfl
      rw [publishing, hwriters]
      exact List.mem_cons_self
    have hdeliveries : deliveries msg.queue ({ s with
        node := (Writer.publish msg).complete { s.node with writers := rest, appended := false }
        }.answer (.publish msg.queue (some msg.data)) (.enqueued msg.id)) =
          deliveries msg.queue s := (deliveries_answer ..).trans (List.append_nil _)
    refine ⟨?_, fun id msg' hfound => hdeliveries ▸ h.delivered id msg' hfound⟩
    rw [entered_answer, idsOf_append, hdeliveries]
    simp only [enqueuedBy, Option.toList_some, Service.answer, Writer.complete]
    rw [queueOf_pushBack, if_pos rfl, List.map_append, List.filter_append, ← List.append_assoc]
    refine congrArg₂ _ h.order ?_
    simp [idsOf, hnew]
  · refine h.of_frame ?_ ?_ ?_ fun _ _ hfound => hfound
    · rw [entered_answer, idsOf_append]
      simp only [enqueuedBy, Option.toList_some]
      simp [idsOf, Ne.symm hname, entered]
    · rw [deliveries_answer]
      exact List.append_nil _
    · simp only [Service.answer, Writer.complete]
      rw [queueOf_pushBack, if_neg hname]

/-- **Every step keeps the order.** -/
theorem InOrder.step (h : InOrder wal name s) (hC : Conserved wal s)
    (hok : FreshIds config s a) (hmove : Moves config s a s') : InOrder wal name s' := by
  cases hmove with
  | @refuse _ request hrequest error status =>
      exact h.answer (by cases request <;> rfl) (by cases request <;> rfl)
  | publish hname => exact h.of_frame rfl rfl rfl fun _ _ hfound => hfound
  | @empty queueName time hempty =>
      have hframe : InOrder wal name { s with
          node := (localDequeue config s.node queueName time).1 } := by
        refine h.of_frame rfl rfl ?_ fun id msg hfound => ?_
        · simp only [localDequeue, hempty]
          exact queueOf_setdefault
        · simpa only [localDequeue, hempty] using hfound
      exact hframe.answer rfl rfl
  | @consume queueName time msg rest hqueue =>
      by_cases hname : name = queueName
      · subst hname
        exact h.consume hC hqueue
      · refine h.of_frame ?_ ?_ ?_ fun id msg' hfound => ?_
        · rw [entered_answer]
          simp [enqueuedBy, entered]
        · rw [deliveries_answer]
          simp [deliveredBy, idsOf, Ne.symm hname, deliveries]
        · simp only [Service.answer, localDequeue, hqueue, queueOf_set, if_neg hname]
        · simpa only [Service.answer, localDequeue, hqueue, inFlight_set, if_neg hname] using hfound
  | @ack queueName messageId hfound =>
      refine h.of_frame rfl rfl rfl fun id msg hget => ?_
      rw [inFlight_set] at hget
      split at hget
      · next hname =>
          rw [Dict.get?_erase, Option.ite_none_left_eq_some] at hget
          exact hname ▸ hget.2
      · rwa [inFlight_setdefault] at hget
  | @notFound queueName messageId hfound =>
      have hframe : InOrder wal name { s with node := { s.node with
          processing := s.node.processing.setdefault queueName ∅ } } :=
        h.of_frame rfl rfl rfl fun _ _ hget => by rwa [inFlight_setdefault] at hget
      exact hframe.answer rfl rfl
  | @requeue now hrecovery =>
      obtain ⟨back, hback, hfrom⟩ := queueOf_requeueExpired s.node name now
      refine ⟨?_, fun id msg hfound => h.delivered id msg (inFlight_requeueExpired hfound)⟩
      -- what comes back has been delivered
      have hseen : (back.map Message.id).filter (· ∉ deliveries name s) = [] := by
        refine List.filter_eq_nil_iff.2 fun id hid => ?_
        obtain ⟨m, hm, rfl⟩ := List.mem_map.1 hid
        obtain ⟨id', msg, hfound, heq⟩ := hfrom m hm
        simpa [heq] using h.delivered id' msg hfound
      have horder := h.order
      simp only [hback, List.map_append, List.filter_append]
      rw [← List.append_nil (List.filter _ _), ← hseen] at horder
      exact horder
  | walWrite => exact h.of_frame rfl rfl rfl fun _ _ hfound => hfound
  | walFail => exact h.of_frame rfl rfl rfl fun _ _ hfound => hfound
  | @walDone writer rest hwriters happended =>
      cases writer with
      | publish msg => exact h.enqueue hC hwriters
      | ack queueName messageId =>
          have hframe : InOrder wal name { s with node := { s.node with
              writers := rest, appended := false } } :=
            h.of_frame rfl rfl rfl fun _ _ hfound => hfound
          exact hframe.answer rfl rfl
  | crash => exact hok.elim
  | recoverLine hrecovery hentry hatEnd =>
      rw [hC.recovery] at hrecovery
      cases hrecovery
  | recoverEnd hrecovery hposition =>
      rw [hC.recovery] at hrecovery
      cases hrecovery
  | recoverFill hrecovery hatEnd =>
      rw [hC.recovery] at hrecovery
      cases hrecovery

end InOrder

/-! ### Runs -/

/-- The node starts with the messages of the log in their order. -/
theorem inOrder_opened {wal : List (WalEntry δ)} (hids : ((enqueued wal).map Message.id).Nodup)
    (name : String) : InOrder wal name (opened wal) where
  order := by
    have hqueue : queueOf (opened wal).node.queues name = unacked wal name :=
      queueOf_recovered wal hids name
    rw [hqueue]
    simp [entered, opened, deliveries, idsOf, unacked, List.filter_map, Function.comp_def]
  delivered := fun _ _ hfound => by cases hfound

/-- **First published, first delivered.**  From a start with any log on, and however publishes,
consumes, acks and sweeps interleave, the messages of a queue, in the order in which they were found
in the log or their publishes were answered, are the delivered ones, in the order of their first
deliveries, and then the ones in the deque that wait for their first delivery, in the order of the
deque. -/
theorem firstInFirstOut {config : Config} {wal : List (WalEntry δ)} {s : Service δ}
    (hids : ((enqueued wal).map Message.id).Nodup)
    (h : Run (QueueNode.step config) (FreshIds config) (opened wal) s) (name : String) :
    idsOf name (entered wal s) = (deliveries name s).eraseDups ++
      ((queueOf s.node.queues name).map Message.id).filter (· ∉ deliveries name s) := by
  have hboth := h.invariant (I := fun s => Conserved wal s ∧ InOrder wal name s)
    (fun _ _ _ hI hok hstep => ⟨hI.1.step hok (moves_of_step hstep),
      hI.2.step hI.1 hok (moves_of_step hstep)⟩)
    ⟨conserved_opened hids, inOrder_opened hids name⟩
  exact hboth.2.order

/-- Three messages, of which the first is delivered, put back behind the others, and delivered again
after the second. -/
def deliveredAgain : List (Action ℕ) :=
  [.publish "jobs" (some 7) 1 0, .publish "jobs" (some 8) 2 0, .publish "jobs" (some 9) 3 0,
    .walWrite, .walDone, .consume "jobs" 1, .walWrite, .walDone, .requeue 40, .walWrite, .walDone,
    .consume "jobs" 41, .consume "jobs" 42]

theorem firstInFirstOut_deliveredAgain :
    ∃ s : Service ℕ, Run (QueueNode.step worker) (FreshIds worker) (opened []) s ∧
      deliveries "jobs" s = ["worker-1", "worker-2", "worker-1"] ∧
      idsOf "jobs" (entered [] s) = (deliveries "jobs" s).eraseDups ++ ["worker-3"] := by
  obtain ⟨s, hs, hdeliveries, hqueue⟩ := Run.exists_of_exec (QueueNode.step worker)
    (FreshIds worker) (opened []) deliveredAgain (fun s =>
      deliveries "jobs" s = ["worker-1", "worker-2", "worker-1"] ∧
      (queueOf s.node.queues "jobs").map Message.id = ["worker-3"]) (by decide +kernel)
  have hids : ((enqueued ([] : List (WalEntry ℕ))).map Message.id).Nodup := List.nodup_nil
  refine ⟨s, hs, hdeliveries, ?_⟩
  rw [firstInFirstOut hids hs "jobs", hqueue, hdeliveries]
  decide

end QueueNode
