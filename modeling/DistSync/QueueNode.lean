/-
**The queue node.**

This module is a transcription of `DistributedQueueNode` in `nodes/queue_node.py`, for requests that
the node serves itself.  Handlers run between their awaits without interruption, and every await
that matters is inside `_append_to_wal`: handlers that write a line wait for `wal_lock` in the order
in which they came, one of them has the file open, and goes on at once when its append is over.  So
a waiting handler is an entry of the list `writers`, whose head has the lock.

A crash may come at any moment and leaves only the file.  The node then starts again: it reads the
file line by line while its server is already open, and fills the queues when it has closed the
file, which it awaits after it has seen the end.

What clients see of the node, and what they have given to it, is kept beside it in a `Service`.

Main definitions:

* `QueueNode.DistributedQueueNode` — memory, write-ahead log and running handlers;
* `QueueNode.localDequeue`, `QueueNode.requeueExpired` — moves between queues and `processing`;
* `QueueNode.Recovery` — the state of `_recover_from_wal` between two lines;
* `QueueNode.step` — **one step of the node**.

Main results:

* `QueueNode.moves_of_step` — every step is one of `QueueNode.Moves`.
-/

import DistSync.Dict
import DistSync.RunRules
import Mathlib.Data.Finset.Insert
import Mathlib.Data.Rat.Defs

set_option relaxedAutoImplicit false
set_option autoImplicit false

namespace QueueNode

variable {δ : Type*}

/-! ### Messages and the log -/

/-- The settings that the queue uses. -/
structure Config where
  nodeId : String
  visibilityTimeout : ℚ

/-- A message, with the time at which its delivery expires while it is in flight. -/
structure Message (δ : Type*) where
  id : String
  queue : String
  data : δ
  ts : ℚ
  visibilityTimeout : Option ℚ

/-- A line of the write-ahead log. -/
inductive WalEntry (δ : Type*)
  | enqueue (payload : Message δ)
  | ack (msgId : String)

/-- The message of a line of type `ENQUEUE`. -/
def WalEntry.payload? : WalEntry δ → Option (Message δ)
  | .enqueue payload => some payload
  | .ack _ => none

/-- The id of a line of type `ACK`. -/
def WalEntry.msgId? : WalEntry δ → Option String
  | .enqueue _ => none
  | .ack msgId => some msgId

/-- A handler inside `_append_to_wal`. -/
inductive Writer (δ : Type*)
  | publish (msgData : Message δ)
  | ack (queueName messageId : String)

/-- The line that the handler writes. -/
def Writer.entry : Writer δ → WalEntry δ
  | .publish msgData => .enqueue msgData
  | .ack _ messageId => .ack messageId

/-! ### Memory -/

/-- The state of `_recover_from_wal`: the number of lines read, the local variables, and whether the
end of the file has been seen. -/
structure Recovery (δ : Type*) where
  position : ℕ
  tempQueues : Dict String (Dict String (Message δ))
  ackedIds : Finset String
  atEnd : Bool

instance : EmptyCollection (Recovery δ) := ⟨⟨0, ∅, ∅, false⟩⟩

/-- The node.  The first of the `writers` has the lock; `appended` says that its append is over. -/
structure DistributedQueueNode (δ : Type*) where
  queues : Dict String (List (Message δ))
  processing : Dict String (Dict String (Message δ))
  writers : List (Writer δ)
  appended : Bool
  recovery : Option (Recovery δ)
  wal : List (WalEntry δ)

/-- The node after a start: nothing in memory, and the log to be read. -/
def start (wal : List (WalEntry δ)) : DistributedQueueNode δ :=
  ⟨∅, ∅, [], false, some ∅, wal⟩

/-- The messages waiting in a queue. -/
def queueOf (queues : Dict String (List (Message δ))) (name : String) : List (Message δ) :=
  (queues.get? name).getD []

/-- The messages of a queue that are in flight. -/
def inFlight (processing : Dict String (Dict String (Message δ))) (name : String) :
    Dict String (Message δ) :=
  (processing.get? name).getD ∅

/-- `self.queues[queue_name].append(msg)`. -/
def pushBack (queues : Dict String (List (Message δ))) (name : String) (msg : Message δ) :
    Dict String (List (Message δ)) :=
  queues.set name (queueOf queues name ++ [msg])

theorem queueOf_pushBack {queues : Dict String (List (Message δ))} {name name' : String}
    {msg : Message δ} :
    queueOf (pushBack queues name msg) name' =
      if name' = name then queueOf queues name ++ [msg] else queueOf queues name' := by
  simp only [queueOf, pushBack, Dict.get?_set]
  split <;> rfl

/-! ### Recovery -/

/-- What `_recover_from_wal` does with one line. -/
def Recovery.readLine (r : Recovery δ) : WalEntry δ → Recovery δ
  | .enqueue msg =>
      { r with
        position := r.position + 1
        tempQueues :=
          r.tempQueues.set msg.queue ((inFlight r.tempQueues msg.queue).set msg.id msg) }
  | .ack msgId => { r with position := r.position + 1, ackedIds := insert msgId r.ackedIds }

/-- The inner loop of the fill, over the messages of one queue. -/
def fillQueue (ackedIds : Finset String) (name : String)
    (queues : Dict String (List (Message δ))) (messages : List (String × Message δ)) :
    Dict String (List (Message δ)) :=
  messages.foldl (fun queues (msgId, msgData) =>
    if msgId ∈ ackedIds then queues else pushBack queues name msgData) queues

/-- The fill at the end of `_recover_from_wal`. -/
def fillQueues (r : Recovery δ) (queues : Dict String (List (Message δ))) :
    Dict String (List (Message δ)) :=
  r.tempQueues.entries.foldl (fun queues (name, messages) =>
    fillQueue r.ackedIds name queues messages.entries) queues

/-! ### Requests and answers -/

/-- A request of a client. -/
inductive Request (δ : Type*)
  | publish (queueName : String) (message : Option δ)
  | consume (queueName : String)
  | ack (queueName messageId : String)
deriving DecidableEq

/-- The answer to a request. -/
inductive Response (δ : Type*)
  | enqueued (messageId : String)
  | message (id : String) (body : δ) (ts : ℚ)
  | acked
  | error (error : String) (status : ℕ)
deriving DecidableEq

/-- The request that a writing handler serves. -/
def Writer.request : Writer δ → Request δ
  | .publish msgData => .publish msgData.queue (some msgData.data)
  | .ack queueName messageId => .ack queueName messageId

/-- The answer that a writing handler gives when its append is over. -/
def Writer.response : Writer δ → Response δ
  | .publish msgData => .enqueued msgData.id
  | .ack _ _ => .acked

/-- A node with its clients: the ids given to messages so far, the answered requests, and the ids
whose ack found its message in flight. -/
structure Service (δ : Type*) where
  node : DistributedQueueNode δ
  minted : List String
  answers : List (Request δ × Response δ)
  accepted : List String

/-- A new node with an empty log. -/
def initial : Service δ := ⟨start [], [], [], []⟩

/-- `f"{self.node_id}-{time.time_ns()}"`. -/
def messageId (config : Config) (timeNs : ℕ) : String :=
  config.nodeId ++ "-" ++ toString timeNs

/-- `_local_dequeue`, where the message is taken from the queue at `time`. -/
def localDequeue (config : Config) (node : DistributedQueueNode δ) (queueName : String) (time : ℚ) :
    DistributedQueueNode δ × Option (Message δ) :=
  match queueOf node.queues queueName with
  | [] => ({ node with queues := node.queues.setdefault queueName [] }, none)
  | msg :: rest =>
      let msg := { msg with visibilityTimeout := some (time + config.visibilityTimeout) }
      ({ node with
        queues := node.queues.set queueName rest
        processing := node.processing.set queueName
          ((inFlight node.processing queueName).set msg.id msg) }, some msg)

/-- The messages that `_requeue_loop` finds expired. -/
def expired (now : ℚ) (inFlight : Dict String (Message δ)) : List (Message δ) :=
  inFlight.values.filter fun msg => msg.visibilityTimeout.getD 0 < now

/-- Putting back one expired message. -/
def requeueMessage (queueName : String) (node : DistributedQueueNode δ) (msg : Message δ) :
    DistributedQueueNode δ :=
  { node with
    processing := node.processing.set queueName ((inFlight node.processing queueName).erase msg.id)
    queues := pushBack node.queues queueName { msg with visibilityTimeout := none } }

/-- One round of `_requeue_loop`. -/
def requeueExpired (now : ℚ) (node : DistributedQueueNode δ) : DistributedQueueNode δ :=
  node.processing.entries.foldl (fun node (queueName, inFlight) =>
    (expired now inFlight).foldl (requeueMessage queueName) node) node

/-- What a handler does after `_append_to_wal`. -/
def Writer.complete (node : DistributedQueueNode δ) : Writer δ → DistributedQueueNode δ
  | .publish msgData => { node with queues := pushBack node.queues msgData.queue msgData }
  | .ack _ _ => node

/-! ### Steps -/

/-- The steps of the node. -/
inductive Action (δ : Type*)
  | publish (queueName : String) (message : Option δ) (timeNs : ℕ) (time : ℚ)
  | consume (queueName : String) (time : ℚ)
  | ack (queueName messageId : String)
  | requeue (now : ℚ)
  | walWrite
  | walFail
  | walDone
  | crash
  | recoverLine
  | recoverEnd
  | recoverFill

/-- The service after an answer. -/
def Service.answer (s : Service δ) (request : Request δ) (response : Response δ) : Service δ :=
  { s with answers := s.answers ++ [(request, response)] }

/-- **One step of the node.**  `none` means that the step cannot be taken now. -/
def step (config : Config) (s : Service δ) : Action δ → Option (Service δ)
  | .publish queueName message timeNs time =>
      match message with
      | none => some (s.answer (.publish queueName message) (.error "missing_fields" 400))
      | some data =>
          if queueName = "" then
            some (s.answer (.publish queueName message) (.error "missing_fields" 400))
          else
            let msgId := messageId config timeNs
            let msgData : Message δ := ⟨msgId, queueName, data, time, none⟩
            some { s with
              node := { s.node with writers := s.node.writers ++ [.publish msgData] }
              minted := s.minted ++ [msgId] }
  | .consume queueName time =>
      if queueName = "" then some (s.answer (.consume queueName) (.error "missing_queue" 400))
      else
        match localDequeue config s.node queueName time with
        | (node, none) =>
            some ({ s with node := node }.answer (.consume queueName) (.error "queue_empty" 404))
        | (node, some msg) =>
            some ({ s with node := node }.answer (.consume queueName)
              (.message msg.id msg.data msg.ts))
  | .ack queueName messageId =>
      if queueName = "" ∨ messageId = "" then
        some (s.answer (.ack queueName messageId) (.error "missing_fields" 400))
      else
        let processing := s.node.processing.setdefault queueName ∅
        if ((inFlight processing queueName).get? messageId).isSome = true then
          some { s with
            node := { s.node with
              processing := processing.set queueName
                ((inFlight processing queueName).erase messageId)
              writers := s.node.writers ++ [.ack queueName messageId] }
            accepted := s.accepted ++ [messageId] }
        else
          some ({ s with node := { s.node with processing := processing } }.answer
            (.ack queueName messageId) (.error "not_found_or_expired" 404))
  | .requeue now =>
      -- the loop is started after the recovery
      if s.node.recovery.isNone = true then
        some { s with node := requeueExpired now s.node }
      else none
  | .walWrite =>
      match s.node.writers, s.node.appended with
      | writer :: _, false =>
          some { s with node := { s.node with
            wal := s.node.wal ++ [writer.entry]
            appended := true } }
      | _, _ => none
  | .walFail =>
      match s.node.writers, s.node.appended with
      -- the exception is logged, and the handler goes on as if the line was there
      | _ :: _, false => some { s with node := { s.node with appended := true } }
      | _, _ => none
  | .walDone =>
      match s.node.writers, s.node.appended with
      | writer :: writers, true =>
          some ({ s with
            node := writer.complete { s.node with writers := writers, appended := false } }.answer
              writer.request writer.response)
      | _, _ => none
  | .crash => some { s with node := start s.node.wal }
  | .recoverLine =>
      match s.node.recovery with
      | none => none
      | some r =>
          match s.node.wal[r.position]?, r.atEnd with
          | some entry, false =>
              some { s with node := { s.node with recovery := some (r.readLine entry) } }
          | _, _ => none
  | .recoverEnd =>
      match s.node.recovery with
      | none => none
      | some r =>
          if r.position = s.node.wal.length then
            some { s with node := { s.node with recovery := some { r with atEnd := true } } }
          else none
  | .recoverFill =>
      match s.node.recovery with
      | none => none
      | some r =>
          -- lines may have been written since the end of the file was seen
          if r.atEnd = true then
            some { s with node := { s.node with
              queues := fillQueues r s.node.queues
              recovery := none } }
          else none

/-! ### What a step does -/

section Frames

variable (config : Config) (node : DistributedQueueNode δ)

/-- Taking a message does not touch the log or the handlers. -/
theorem localDequeue_frame (queueName : String) (time : ℚ) :
    (localDequeue config node queueName time).1.writers = node.writers ∧
    (localDequeue config node queueName time).1.appended = node.appended ∧
    (localDequeue config node queueName time).1.recovery = node.recovery ∧
    (localDequeue config node queueName time).1.wal = node.wal := by
  unfold localDequeue
  split <;> exact ⟨rfl, rfl, rfl, rfl⟩

theorem requeueMessages_frame (queueName : String) (msgs : List (Message δ)) :
    (msgs.foldl (requeueMessage queueName) node).writers = node.writers ∧
    (msgs.foldl (requeueMessage queueName) node).appended = node.appended ∧
    (msgs.foldl (requeueMessage queueName) node).recovery = node.recovery ∧
    (msgs.foldl (requeueMessage queueName) node).wal = node.wal := by
  induction msgs generalizing node with
  | nil => exact ⟨rfl, rfl, rfl, rfl⟩
  | cons msg msgs ih => exact ih (requeueMessage queueName node msg)

/-- Nor does putting messages back. -/
theorem requeueExpired_frame (now : ℚ) :
    (requeueExpired now node).writers = node.writers ∧
    (requeueExpired now node).appended = node.appended ∧
    (requeueExpired now node).recovery = node.recovery ∧
    (requeueExpired now node).wal = node.wal := by
  unfold requeueExpired
  generalize node.processing.entries = entries
  induction entries generalizing node with
  | nil => exact ⟨rfl, rfl, rfl, rfl⟩
  | cons entry entries ih =>
      obtain ⟨h₁, h₂, h₃, h₄⟩ := requeueMessages_frame node entry.1 (expired now entry.2)
      obtain ⟨h₁', h₂', h₃', h₄'⟩ := ih ((expired now entry.2).foldl (requeueMessage entry.1) node)
      exact ⟨h₁'.trans h₁, h₂'.trans h₂, h₃'.trans h₃, h₄'.trans h₄⟩

@[simp] theorem complete_frame (writer : Writer δ) :
    (writer.complete node).writers = node.writers ∧
    (writer.complete node).appended = node.appended ∧
    (writer.complete node).recovery = node.recovery ∧
    (writer.complete node).wal = node.wal := by
  cases writer <;> exact ⟨rfl, rfl, rfl, rfl⟩

end Frames

/-- The request that a refused action made. -/
def Action.request? : Action δ → Option (Request δ)
  | .publish queueName message _ _ => some (.publish queueName message)
  | .consume queueName _ => some (.consume queueName)
  | .ack queueName messageId => some (.ack queueName messageId)
  | _ => none

/-- The steps of the node, one constructor for each way a step can go. -/
inductive Moves (config : Config) (s : Service δ) : Action δ → Service δ → Prop
  | refuse {a : Action δ} {request : Request δ} (hrequest : a.request? = some request)
      (error : String) (status : ℕ) : Moves config s a (s.answer request (.error error status))
  | publish {queueName : String} {data : δ} {timeNs : ℕ} {time : ℚ} (hname : queueName ≠ "") :
      Moves config s (.publish queueName (some data) timeNs time)
        { s with
          node := { s.node with writers := s.node.writers ++
            [.publish ⟨messageId config timeNs, queueName, data, time, none⟩] }
          minted := s.minted ++ [messageId config timeNs] }
  | empty {queueName : String} {time : ℚ} (hempty : queueOf s.node.queues queueName = []) :
      Moves config s (.consume queueName time)
        ({ s with node := (localDequeue config s.node queueName time).1 }.answer
          (.consume queueName) (.error "queue_empty" 404))
  | consume {queueName : String} {time : ℚ} {msg : Message δ} {rest : List (Message δ)}
      (hqueue : queueOf s.node.queues queueName = msg :: rest) :
      Moves config s (.consume queueName time)
        ({ s with node := (localDequeue config s.node queueName time).1 }.answer
          (.consume queueName) (.message msg.id msg.data msg.ts))
  | ack {queueName messageId : String}
      (hfound : ((inFlight s.node.processing queueName).get? messageId).isSome = true) :
      Moves config s (.ack queueName messageId)
        { s with
          node := { s.node with
            processing := (s.node.processing.setdefault queueName ∅).set queueName
              ((inFlight s.node.processing queueName).erase messageId)
            writers := s.node.writers ++ [.ack queueName messageId] }
          accepted := s.accepted ++ [messageId] }
  | notFound {queueName messageId : String}
      (hfound : (inFlight s.node.processing queueName).get? messageId = none) :
      Moves config s (.ack queueName messageId)
        ({ s with node := { s.node with
            processing := s.node.processing.setdefault queueName ∅ } }.answer
          (.ack queueName messageId) (.error "not_found_or_expired" 404))
  | requeue {now : ℚ} (hrecovery : s.node.recovery = none) :
      Moves config s (.requeue now) { s with node := requeueExpired now s.node }
  | walWrite {writer : Writer δ} {rest : List (Writer δ)} (hwriters : s.node.writers = writer :: rest)
      (happended : s.node.appended = false) :
      Moves config s .walWrite
        { s with node := { s.node with wal := s.node.wal ++ [writer.entry], appended := true } }
  | walFail {writer : Writer δ} {rest : List (Writer δ)} (hwriters : s.node.writers = writer :: rest)
      (happended : s.node.appended = false) :
      Moves config s .walFail { s with node := { s.node with appended := true } }
  | walDone {writer : Writer δ} {rest : List (Writer δ)} (hwriters : s.node.writers = writer :: rest)
      (happended : s.node.appended = true) :
      Moves config s .walDone
        ({ s with
          node := writer.complete { s.node with writers := rest, appended := false } }.answer
            writer.request writer.response)
  | crash : Moves config s .crash { s with node := start s.node.wal }
  | recoverLine {r : Recovery δ} {entry : WalEntry δ} (hrecovery : s.node.recovery = some r)
      (hentry : s.node.wal[r.position]? = some entry) (hatEnd : r.atEnd = false) :
      Moves config s .recoverLine
        { s with node := { s.node with recovery := some (r.readLine entry) } }
  | recoverEnd {r : Recovery δ} (hrecovery : s.node.recovery = some r)
      (hposition : r.position = s.node.wal.length) :
      Moves config s .recoverEnd
        { s with node := { s.node with recovery := some { r with atEnd := true } } }
  | recoverFill {r : Recovery δ} (hrecovery : s.node.recovery = some r) (hatEnd : r.atEnd = true) :
      Moves config s .recoverFill
        { s with node := { s.node with queues := fillQueues r s.node.queues, recovery := none } }

theorem inFlight_setdefault (processing : Dict String (Dict String (Message δ)))
    (queueName name : String) :
    inFlight (processing.setdefault queueName ∅) name = inFlight processing name := by
  simp only [inFlight, Dict.get?_setdefault]
  split
  · next h => rw [h, Option.getD_some]
  · rfl

theorem moves_of_step {config : Config} {s s' : Service δ} {a : Action δ}
    (h : step config s a = some s') : Moves config s a s' := by
  cases a with
  | publish queueName message timeNs time =>
      cases message with
      | none =>
          cases h
          exact .refuse rfl _ _
      | some data =>
          simp only [step] at h
          split at h
          · cases h
            exact .refuse rfl _ _
          · next hname =>
              cases h
              exact .publish hname
  | consume queueName time =>
      simp only [step] at h
      split at h
      · cases h
        exact .refuse rfl _ _
      · cases hqueue : queueOf s.node.queues queueName with
        | nil =>
            have hmove : Moves config s (.consume queueName time) _ := .empty hqueue
            simp only [localDequeue, hqueue] at h hmove
            cases h
            exact hmove
        | cons msg rest =>
            have hmove : Moves config s (.consume queueName time) _ := .consume hqueue
            simp only [localDequeue, hqueue] at h hmove
            cases h
            exact hmove
  | ack queueName messageId =>
      simp only [step, inFlight_setdefault] at h
      split at h
      · cases h
        exact .refuse rfl _ _
      · split at h
        · next hfound =>
            cases h
            exact .ack hfound
        · next hfound =>
            cases h
            exact .notFound (Option.not_isSome_iff_eq_none.1 hfound)
  | requeue now =>
      simp only [step] at h
      split at h
      · next hrecovery =>
          cases h
          exact .requeue (Option.isNone_iff_eq_none.1 hrecovery)
      · cases h
  | walWrite =>
      simp only [step] at h
      split at h
      · next hwriters happended =>
          cases h
          exact .walWrite hwriters happended
      · cases h
  | walFail =>
      simp only [step] at h
      split at h
      · next hwriters happended =>
          cases h
          exact .walFail hwriters happended
      · cases h
  | walDone =>
      simp only [step] at h
      split at h
      · next hwriters happended =>
          cases h
          exact .walDone hwriters happended
      · cases h
  | crash =>
      cases h
      exact .crash
  | recoverLine =>
      simp only [step] at h
      split at h
      · cases h
      · next r hrecovery =>
          split at h
          · next entry hentry hatEnd =>
              cases h
              exact .recoverLine hrecovery hentry hatEnd
          · cases h
  | recoverEnd =>
      simp only [step] at h
      split at h
      · cases h
      · next r hrecovery =>
          split at h
          · next hposition =>
              cases h
              exact .recoverEnd hrecovery hposition
          · cases h
  | recoverFill =>
      simp only [step] at h
      split at h
      · cases h
      · next r hrecovery =>
          split at h
          · next hatEnd =>
              cases h
              exact .recoverFill hrecovery hatEnd
          · cases h

end QueueNode
