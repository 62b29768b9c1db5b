/-
**No message is lost or duplicated in memory.**

Between its publish and its ack a message is in one of two places of the queue node: in the deque of
its queue, or in the table of the messages of this queue that are in flight.  `_local_dequeue` and
`_requeue_loop` move it from one place to the other, the publish brings it in and an accepted ack
takes it out, and none of them awaits in the middle of such a move.

All places are collected in one list, `QueueNode.located`, and every step of the node is described
by what it does to this list: nothing but a change of the order, one message more, or one less.  So
the messages in memory and the accepted ones together are always those that have been enqueued.

The node starts with any log, after it has read it; the messages that it finds there count as
enqueued.

Main definitions:

* `QueueNode.located` — the messages in memory, with the names under which they are stored;
* `QueueNode.Conserved` — **the messages in memory and the accepted ones are the enqueued ones**.

Main results:

* `QueueNode.conserved_run` — without a crash the messages are conserved;
* `QueueNode.conservation` — **a message is in exactly one place until its ack is accepted**.
-/

import DistSync.QueueRecovery

set_option relaxedAutoImplicit false
set_option autoImplicit false

namespace QueueNode

open Runs

variable {δ : Type*}

/-! ### Where the messages are -/

/-- The message as it was published: `visibility_timeout` is an entry of its time in flight. -/
def Message.published (msg : Message δ) : Message δ := { msg with visibilityTimeout := none }

/-- The messages of a deque, with the name of the queue. -/
def waiting (name : String) (msgs : List (Message δ)) : List (String × Message δ) :=
  msgs.map fun msg => (name, msg.published)

/-- The messages of a table of `processing`, with the name of the queue. -/
def underway (name : String) (table : Dict String (Message δ)) : List (String × Message δ) :=
  waiting name table.values

/-- All messages in memory, with the names of the queues under which they are stored. -/
def located (node : DistributedQueueNode δ) : List (String × Message δ) :=
  Dict.gather waiting node.queues ++ Dict.gather underway node.processing

theorem waiting_append (name : String) (msgs msgs' : List (Message δ)) :
    waiting name (msgs ++ msgs') = waiting name msgs ++ waiting name msgs' :=
  List.map_append

/-- The deques are what `queueOf` finds for a name, and the others. -/
theorem gather_waiting (queues : Dict String (List (Message δ))) (name : String) :
    (Dict.gather waiting queues).Perm
      (waiting name (queueOf queues name) ++ Dict.gather waiting (queues.erase name)) :=
  Dict.gather_perm rfl

theorem gather_underway (processing : Dict String (Dict String (Message δ))) (name : String) :
    (Dict.gather underway processing).Perm
      (underway name (inFlight processing name) ++ Dict.gather underway (processing.erase name)) :=
  Dict.gather_perm rfl

/-- A message that enters a deque is one more. -/
theorem gather_pushBack (queues : Dict String (List (Message δ))) (name : String)
    (msg : Message δ) :
    (Dict.gather waiting (pushBack queues name msg)).Perm
      ((name, msg.published) :: Dict.gather waiting queues) := by
  refine Dict.gather_set.trans ?_
  rw [waiting_append, List.append_assoc]
  refine List.perm_middle.trans (List.Perm.cons _ ?_)
  exact (gather_waiting queues name).symm

/-- A message that leaves the head of a deque is one less. -/
theorem gather_pop {queues : Dict String (List (Message δ))} {name : String} {msg : Message δ}
    {rest : List (Message δ)} (hqueue : queueOf queues name = msg :: rest) :
    (Dict.gather waiting queues).Perm
      ((name, msg.published) :: Dict.gather waiting (queues.set name rest)) := by
  have hset : (Dict.gather waiting (queues.set name rest)).Perm
      (waiting name rest ++ Dict.gather waiting (queues.erase name)) := Dict.gather_set
  refine (gather_waiting queues name).trans ?_
  rw [hqueue]
  exact List.Perm.cons _ hset.symm

/-- A message under a new key of a table is one more. -/
theorem gather_take {processing : Dict String (Dict String (Message δ))} {name : String}
    {msg : Message δ} (hnew : (inFlight processing name).get? msg.id = none) :
    (Dict.gather underway (processing.set name ((inFlight processing name).set msg.id msg))).Perm
      ((name, msg.published) :: Dict.gather underway processing) := by
  refine Dict.gather_set.trans ?_
  rw [underway, Dict.values, Dict.entries_set_of_new hnew, List.map_append, waiting_append,
    List.append_assoc]
  refine List.perm_middle.trans (List.Perm.cons _ ?_)
  exact (gather_underway processing name).symm

/-- A message that is taken out of a table is one less. -/
theorem gather_drop {processing : Dict String (Dict String (Message δ))} {name id : String}
    {msg : Message δ} (hfound : (inFlight processing name).get? id = some msg) :
    (Dict.gather underway processing).Perm
      ((name, msg.published) ::
        Dict.gather underway (processing.set name ((inFlight processing name).erase id))) := by
  refine (gather_underway processing name).trans ?_
  have htable : (underway name (inFlight processing name)).Perm
      ((name, msg.published) :: underway name ((inFlight processing name).erase id)) :=
    ((Dict.entries_perm_of_get? hfound).map Prod.snd).map _
  refine (htable.append_right _).trans (List.Perm.cons _ ?_)
  exact Dict.gather_set.symm

/-! ### Moves between the places -/

/-- The keys of the tables are the ids of the messages. -/
def Keyed (processing : Dict String (Dict String (Message δ))) : Prop :=
  ∀ name id msg, (inFlight processing name).get? id = some msg → msg.id = id

theorem Keyed.set {processing : Dict String (Dict String (Message δ))} (h : Keyed processing)
    {name : String} {table : Dict String (Message δ)}
    (htable : ∀ id msg, table.get? id = some msg → msg.id = id) :
    Keyed (processing.set name table) := by
  intro name' id msg hmsg
  rw [inFlight_set] at hmsg
  split at hmsg
  · exact htable id msg hmsg
  · exact h name' id msg hmsg

theorem Keyed.erase {processing : Dict String (Dict String (Message δ))} (h : Keyed processing)
    (name id : String) :
    ∀ id' msg, ((inFlight processing name).erase id).get? id' = some msg → msg.id = id' := by
  intro id' msg hmsg
  rw [Dict.get?_erase, Option.ite_none_left_eq_some] at hmsg
  exact h name id' msg hmsg.2

theorem Keyed.setdefault {processing : Dict String (Dict String (Message δ))} (h : Keyed processing)
    (name : String) : Keyed (processing.setdefault name ∅) := by
  intro name' id msg hmsg
  rw [inFlight_setdefault] at hmsg
  exact h name' id msg hmsg

/-- The ids in a table are different. -/
theorem Keyed.nodup {processing : Dict String (Dict String (Message δ))} (h : Keyed processing)
    (name : String) : ((inFlight processing name).values.map Message.id).Nodup := by
  have hkeys : (inFlight processing name).values.map Message.id =
      (inFlight processing name).entries.map Prod.fst := by
    rw [Dict.values, List.map_map]
    exact List.map_congr_left fun e he => h name e.1 e.2 (Dict.get?_eq_some_iff.2 he)
  rw [hkeys]
  exact (inFlight processing name).nodup

/-- A message that has expired goes back to its deque. -/
theorem located_requeueMessage {node : DistributedQueueNode δ} {name : String} {msg : Message δ}
    (hfound : (inFlight node.processing name).get? msg.id = some msg) :
    (located (requeueMessage name node msg)).Perm (located node) := by
  refine ((gather_pushBack node.queues name _).append_right _).trans ?_
  refine List.perm_middle.symm.trans (List.Perm.append_left _ ?_)
  exact (gather_drop hfound).symm

/-- What the inner loop of `_requeue_loop` does: the messages of one table that have expired go back
to their deque, one after the other. -/
theorem located_requeueMessages {name : String} {msgs : List (Message δ)}
    {node : DistributedQueueNode δ} (hkeyed : Keyed node.processing)
    (hnodup : (msgs.map Message.id).Nodup)
    (hfound : ∀ m ∈ msgs, (inFlight node.processing name).get? m.id = some m) :
    (located (msgs.foldl (requeueMessage name) node)).Perm (located node) ∧
      Keyed (msgs.foldl (requeueMessage name) node).processing ∧
      ∀ name', name' ≠ name →
        inFlight (msgs.foldl (requeueMessage name) node).processing name' =
          inFlight node.processing name' := by
  induction msgs generalizing node with
  | nil => exact ⟨List.Perm.refl _, hkeyed, fun _ _ => rfl⟩
  | cons msg msgs ih =>
      rw [List.map_cons, List.nodup_cons] at hnodup
      have hkeyed' : Keyed (requeueMessage name node msg).processing :=
        hkeyed.set (hkeyed.erase name msg.id)
      have hfound' : ∀ m ∈ msgs,
          (inFlight (requeueMessage name node msg).processing name).get? m.id = some m := by
        intro m hm
        have hne : m.id ≠ msg.id := fun hid => hnodup.1 (hid ▸ List.mem_map_of_mem hm)
        rw [requeueMessage, inFlight_set, if_pos rfl, Dict.get?_erase_of_ne hne]
        exact hfound m (List.mem_cons_of_mem _ hm)
      obtain ⟨hperm, hkeyed'', hframe⟩ := ih hkeyed' hnodup.2 hfound'
      refine ⟨hperm.trans (located_requeueMessage (hfound msg List.mem_cons_self)), hkeyed'',
        fun name' hname => (hframe name' hname).trans ?_⟩
      rw [requeueMessage, inFlight_set, if_neg hname]

/-- **A round of `_requeue_loop` moves messages, and keeps them all.** -/
theorem located_requeueExpired (now : ℚ) {node : DistributedQueueNode δ}
    (hkeyed : Keyed node.processing) :
    (located (requeueExpired now node)).Perm (located node) ∧
      Keyed (requeueExpired now node).processing := by
  have hloop : ∀ (entries : List (String × Dict String (Message δ)))
      (node : DistributedQueueNode δ), Keyed node.processing → (entries.map Prod.fst).Nodup →
      (∀ e ∈ entries, inFlight node.processing e.1 = e.2) →
      (located (entries.foldl (fun node e =>
        (expired now e.2).foldl (requeueMessage e.1) node) node)).Perm (located node) ∧
      Keyed (entries.foldl (fun node e =>
        (expired now e.2).foldl (requeueMessage e.1) node) node).processing := by
    intro entries
    induction entries with
    | nil => exact fun node hkeyed _ _ => ⟨List.Perm.refl _, hkeyed⟩
    | cons entry entries ih =>
        intro node hkeyed hnodup hsame
        rw [List.map_cons, List.nodup_cons] at hnodup
        have htable := hsame entry List.mem_cons_self
        have hfound : ∀ m ∈ expired now entry.2,
            (inFlight node.processing entry.1).get? m.id = some m := by
          intro m hm
          obtain ⟨id, hid⟩ := Dict.mem_values_iff.1 (List.mem_filter.1 hm).1
          rw [← htable] at hid
          rw [hkeyed _ _ _ hid]
          exact hid
        have hids : ((expired now entry.2).map Message.id).Nodup := by
          rw [← htable]
          exact (hkeyed.nodup entry.1).sublist (List.filter_sublist.map _)
        obtain ⟨hperm, hkeyed', hframe⟩ := located_requeueMessages hkeyed hids hfound
        -- the tables of the other queues are as they were
        obtain ⟨hperm', hkeyed''⟩ := ih _ hkeyed' hnodup.2 fun e he => by
          have hne : e.1 ≠ entry.1 := fun heq => hnodup.1 (heq ▸ List.mem_map_of_mem he)
          rw [hframe _ hne]
          exact hsame e (List.mem_cons_of_mem _ he)
        exact ⟨hperm'.trans hperm, hkeyed''⟩
  refine hloop node.processing.entries node hkeyed node.processing.nodup fun e he => ?_
  rw [inFlight, Dict.get?_eq_some_iff.2 he, Option.getD_some]

/-- `_local_dequeue` moves the head of the deque to the table. -/
theorem located_localDequeue (config : Config) {node : DistributedQueueNode δ} {name : String}
    (time : ℚ) (hkeyed : Keyed node.processing)
    (hnew : ∀ msg ∈ (queueOf node.queues name).head?,
      (inFlight node.processing name).get? msg.id = none) :
    (located (localDequeue config node name time).1).Perm (located node) ∧
      Keyed (localDequeue config node name time).1.processing := by
  unfold localDequeue
  split
  · exact ⟨(Dict.gather_setdefault rfl).append_right _, hkeyed⟩
  · next msg rest hqueue =>
      rw [hqueue] at hnew
      refine ⟨?_, hkeyed.set fun id msg' hmsg => ?_⟩
      · refine ((gather_take ?_).append_left _).trans ?_
        · exact hnew msg rfl
        · exact List.perm_middle.trans ((gather_pop hqueue).append_right _).symm
      · rw [Dict.get?_set] at hmsg
        split at hmsg
        · next hid =>
            rw [← Option.some.inj hmsg, hid]
        · exact hkeyed name id msg' hmsg

/-! ### Enqueued messages -/

/-- The queue and the id of a publish that was answered. -/
def enqueuedBy : Request δ × Response δ → Option (String × String)
  | (.publish name _, .enqueued id) => some (name, id)
  | _ => none

/-- The queues and ids of the messages that have been enqueued: those that were found in the log at
the start, and those whose publish was answered. -/
def entered (wal : List (WalEntry δ)) (s : Service δ) : List (String × String) :=
  ((enqueued wal).filter (fun m => m.id ∉ acked wal)).map (fun m => (m.queue, m.id)) ++
    s.answers.filterMap enqueuedBy

/-- The ids of the messages that are being published. -/
def publishing (node : DistributedQueueNode δ) : List String :=
  (node.writers.filterMap Writer.message?).map Message.id

/-- An ack brings no message. -/
theorem messages_ack (writers : List (Writer δ)) (name id : String) :
    (writers ++ [Writer.ack name id]).filterMap Writer.message? =
      writers.filterMap Writer.message? := by
  rw [List.filterMap_append]
  exact List.append_nil _

/-- The queue name and the id of a place. -/
def spot (place : String × Message δ) : String × String := (place.1, place.2.id)

/-- A node that has started with the log `wal` and read it. -/
def opened (wal : List (WalEntry δ)) : Service δ :=
  { node := { start wal with queues := fillQueues (readLines wal) ∅, recovery := none }
    minted := (enqueued wal).map Message.id
    answers := []
    accepted := [] }

/-- Every message gets a new id, and the node does not crash. -/
def FreshIds (config : Config) (s : Service δ) : Action δ → Prop
  | .publish _ _ timeNs _ => messageId config timeNs ∉ s.minted
  | .crash => False
  | _ => True

instance (config : Config) (s : Service δ) : DecidablePred (FreshIds config s)
  | .publish _ _ _ _ => inferInstanceAs (Decidable (¬ _))
  | .crash => .isFalse id
  | .consume _ _ | .ack _ _ | .requeue _ | .walWrite | .walFail | .walDone => .isTrue trivial
  | .recoverLine | .recoverEnd | .recoverFill => .isTrue trivial

/-- **The messages in memory and the accepted ones are the enqueued ones.** -/
structure Conserved (wal : List (WalEntry δ)) (s : Service δ) : Prop where
  recovery : s.node.recovery = none
  keyed : Keyed s.node.processing
  own : ∀ place ∈ located s.node, place.2.queue = place.1
  fresh : ((entered wal s).map Prod.snd ++ publishing s.node).Nodup
  minted : ∀ id ∈ (entered wal s).map Prod.snd ++ publishing s.node, id ∈ s.minted
  conserved : ∃ out : List (String × String), out.map Prod.snd = s.accepted ∧
    ((located s.node).map spot ++ out).Perm (entered wal s)

theorem entered_answer (wal : List (WalEntry δ)) (s : Service δ) (request : Request δ)
    (response : Response δ) :
    entered wal (s.answer request response) =
      entered wal s ++ (enqueuedBy (request, response)).toList := by
  rw [entered, entered, Service.answer, List.filterMap_append, List.append_assoc]
  rfl

namespace Conserved

variable {wal : List (WalEntry δ)} {s s' : Service δ} {config : Config} {a : Action δ}

/-- The ids in memory and the accepted ones are different. -/
theorem nodup (h : Conserved wal s) :
    ((located s.node).map (fun place => place.2.id) ++ s.accepted).Nodup := by
  obtain ⟨out, hout, hperm⟩ := h.conserved
  have hids := (hperm.map Prod.snd).nodup_iff.2 (List.nodup_append.1 h.fresh).1
  rw [List.map_append, hout, List.map_map] at hids
  exact hids

/-- The head of a deque is not in flight. -/
theorem not_inFlight (h : Conserved wal s) {name : String} {msg : Message δ}
    {rest : List (Message δ)} (hqueue : queueOf s.node.queues name = msg :: rest) :
    (inFlight s.node.processing name).get? msg.id = none := by
  rw [Option.eq_none_iff_forall_ne_some]
  intro msg' hfound
  have hids := (List.nodup_append.1 h.nodup).1
  have hperm : (located s.node).Perm ((name, msg.published) :: (name, msg'.published) :: _) :=
    ((gather_pop hqueue).append (gather_drop hfound)).trans
      (List.Perm.cons _ List.perm_middle)
  have hids' := (hperm.map fun place => place.2.id).nodup_iff.1 hids
  rw [List.map_cons, List.map_cons, List.nodup_cons] at hids'
  refine hids'.1 (List.mem_cons.2 (.inl ?_))
  exact (h.keyed name _ _ hfound).symm

/-- A step that only moves messages. -/
theorem of_frame (h : Conserved wal s) (hrecovery : s'.node.recovery = none)
    (hkeyed : Keyed s'.node.processing) (hperm : (located s'.node).Perm (located s.node))
    (hentered : entered wal s' = entered wal s) (hpublishing : publishing s'.node = publishing s.node)
    (hminted : s'.minted = s.minted) (haccepted : s'.accepted = s.accepted) : Conserved wal s' where
  recovery := hrecovery
  keyed := hkeyed
  own := fun place hplace => h.own place (hperm.subset hplace)
  fresh := by
    rw [hentered, hpublishing]
    exact h.fresh
  minted := by
    rw [hentered, hpublishing, hminted]
    exact h.minted
  conserved := by
    obtain ⟨out, hout, hconserved⟩ := h.conserved
    rw [hentered, haccepted]
    exact ⟨out, hout, ((hperm.map spot).append_right out).trans hconserved⟩

/-- An answer that is not about a publish. -/
theorem answer (h : Conserved wal s) {request : Request δ} {response : Response δ}
    (hnone : enqueuedBy (request, response) = none) : Conserved wal (s.answer request response) := by
  refine h.of_frame h.recovery h.keyed (List.Perm.refl _) ?_ rfl rfl rfl
  rw [entered_answer, hnone, Option.toList_none, List.append_nil]

/-- A consume takes the head of the deque, if there is one. -/
theorem dequeue (h : Conserved wal s) (name : String) (time : ℚ) :
    Conserved wal { s with node := (localDequeue config s.node name time).1 } := by
  have hnew : ∀ msg ∈ (queueOf s.node.queues name).head?,
      (inFlight s.node.processing name).get? msg.id = none := by
    intro msg hmsg
    cases hqueue : queueOf s.node.queues name with
    | nil =>
        rw [hqueue] at hmsg
        cases hmsg
    | cons first rest =>
        rw [hqueue] at hmsg
        exact Option.some.inj hmsg ▸ h.not_inFlight hqueue
  obtain ⟨hperm, hkeyed⟩ := located_localDequeue config time h.keyed hnew
  obtain ⟨hwriters, -, hrecovery, -⟩ := localDequeue_frame config s.node name time
  refine h.of_frame (hrecovery.trans h.recovery) hkeyed hperm rfl ?_ rfl rfl
  rw [publishing, hwriters]
  rfl

/-- A publish waits for the log. -/
theorem publish (h : Conserved wal s) {name : String} {data : δ} {time : ℚ} {id : String}
    (hid : id ∉ s.minted) :
    Conserved wal { s with
      node := { s.node with
        writers := s.node.writers ++ [.publish ⟨id, name, data, time, none⟩] }
      minted := s.minted ++ [id] } where
  recovery := h.recovery
  keyed := h.keyed
  own := h.own
  fresh := by
    simp only [publishing, List.filterMap_append, List.map_append, ← List.append_assoc]
    refine h.fresh.append (List.nodup_singleton _) fun id' hid' hnew => hid ?_
    obtain rfl := List.mem_singleton.1 hnew
    exact h.minted _ hid'
  minted := by
    intro id' hid'
    simp only [publishing, List.filterMap_append, List.map_append, ← List.append_assoc] at hid'
    rcases List.mem_append.1 hid' with hold | hnew
    · exact List.mem_append_left _ (h.minted id' hold)
    · exact List.mem_append_right _ hnew
  conserved := h.conserved

/-- An accepted ack takes its message out of the table. -/
theorem ack (h : Conserved wal s) {name id : String} {msg : Message δ}
    (hfound : (inFlight s.node.processing name).get? id = some msg) :
    Conserved wal { s with
      node := { s.node with
        processing := (s.node.processing.setdefault name ∅).set name
          ((inFlight s.node.processing name).erase id)
        writers := s.node.writers ++ [.ack name id] }
      accepted := s.accepted ++ [id] } := by
  have hdrop := @gather_drop _ (s.node.processing.setdefault name ∅) name id msg
    (by rw [inFlight_setdefault]; exact hfound)
  rw [inFlight_setdefault] at hdrop
  have hperm : (located s.node).Perm ((name, msg.published) ::
      (Dict.gather waiting s.node.queues ++ Dict.gather underway
        ((s.node.processing.setdefault name ∅).set name
          ((inFlight s.node.processing name).erase id)))) :=
    (((Dict.gather_setdefault rfl).symm.trans hdrop).append_left _).trans List.perm_middle
  refine ⟨h.recovery, (h.keyed.setdefault name).set (h.keyed.erase name id),
    fun place hplace => ?_, ?_, ?_, ?_⟩
  · exact h.own place (hperm.symm.subset (List.mem_cons_of_mem _ hplace))
  · rw [publishing, messages_ack]
    exact h.fresh
  · rw [publishing, messages_ack]
    exact h.minted
  · obtain ⟨out, hout, hconserved⟩ := h.conserved
    refine ⟨out ++ [(name, id)], by rw [List.map_append, hout]; rfl, ?_⟩
    have hspot : spot (name, msg.published) = (name, id) :=
      Prod.ext rfl (h.keyed name id msg hfound)
    refine List.Perm.trans ?_ hconserved
    refine List.Perm.trans ?_ ((hperm.map spot).append_right out).symm
    rw [List.map_cons, hspot, ← List.append_assoc]
    exact List.perm_append_comm

/-- A publish whose append is over puts its message into the deque. -/
theorem enqueue (h : Conserved wal s) {msg : Message δ} {rest : List (Writer δ)}
    (hwriters : s.node.writers = .publish msg :: rest) :
    Conserved wal ({ s with
      node := (Writer.publish msg).complete { s.node with writers := rest, appended := false }
      }.answer (.publish msg.queue (some msg.data)) (.enqueued msg.id)) := by
  have hperm := (gather_pushBack s.node.queues msg.queue msg).append_right
    (Dict.gather underway s.node.processing)
  have hpublishing : publishing s.node =
      msg.id :: (rest.filterMap Writer.message?).map Message.id := by
    rw [publishing, hwriters]
    rfl
  have hentered : (entered wal s ++ [(msg.queue, msg.id)]).map Prod.snd ++
      (rest.filterMap Writer.message?).map Message.id =
        (entered wal s).map Prod.snd ++ publishing s.node := by
    rw [hpublishing, List.map_append, List.append_assoc]
    rfl
  refine ⟨h.recovery, h.keyed, fun place hplace => ?_, ?_, ?_, ?_⟩
  · rcases List.mem_cons.1 (hperm.subset hplace) with rfl | hplace
    · rfl
    · exact h.own place hplace
  · rw [entered_answer]
    exact hentered ▸ h.fresh
  · rw [entered_answer]
    exact hentered ▸ h.minted
  · obtain ⟨out, hout, hconserved⟩ := h.conserved
    refine ⟨out, hout, ?_⟩
    rw [entered_answer]
    refine ((hperm.map spot).append_right out).trans ?_
    exact (List.Perm.cons _ hconserved).trans (List.perm_append_singleton _ _).symm

/-- **Every step conserves the messages.** -/
theorem step (h : Conserved wal s) (hok : FreshIds config s a)
    (hmove : Moves config s a s') : Conserved wal s' := by
  cases hmove with
  | refuse hrequest error status => exact h.answer (by cases ‹Request δ› <;> rfl)
  | publish hname => exact h.publish hok
  | @empty queueName time hempty => exact (h.dequeue queueName time).answer rfl
  | @consume queueName time msg rest hqueue => exact (h.dequeue queueName time).answer rfl
  | @ack queueName messageId hfound =>
      obtain ⟨msg, hmsg⟩ := Option.isSome_iff_exists.1 hfound
      exact h.ack hmsg
  | @notFound queueName messageId hfound =>
      have hframe : Conserved wal { s with node := { s.node with
          processing := s.node.processing.setdefault queueName ∅ } } :=
        h.of_frame h.recovery (h.keyed.setdefault queueName)
          ((Dict.gather_setdefault rfl).append_left _) rfl rfl rfl rfl
      exact hframe.answer rfl
  | @requeue now hrecovery =>
      obtain ⟨hperm, hkeyed⟩ := located_requeueExpired now h.keyed
      obtain ⟨hwriters, -, hrec, -⟩ := requeueExpired_frame s.node now
      refine h.of_frame (hrec.trans h.recovery) hkeyed hperm rfl ?_ rfl rfl
      rw [publishing, hwriters]
      rfl
  | walWrite hwriters happended =>
      exact h.of_frame h.recovery h.keyed (List.Perm.refl _) rfl rfl rfl rfl
  | walFail hwriters happended =>
      exact h.of_frame h.recovery h.keyed (List.Perm.refl _) rfl rfl rfl rfl
  | @walDone writer rest hwriters happended =>
      cases writer with
      | publish msg => exact h.enqueue hwriters
      | ack queueName messageId =>
          have hframe : Conserved wal { s with node := { s.node with
              writers := rest, appended := false } } := by
            refine h.of_frame h.recovery h.keyed (List.Perm.refl _) rfl ?_ rfl rfl
            rw [publishing, publishing, hwriters]
            rfl
          exact hframe.answer rfl
  | crash => exact hok.elim
  | recoverLine hrecovery hentry hatEnd =>
      rw [h.recovery] at hrecovery
      cases hrecovery
  | recoverEnd hrecovery hposition =>
      rw [h.recovery] at hrecovery
      cases hrecovery
  | recoverFill hrecovery hatEnd =>
      rw [h.recovery] at hrecovery
      cases hrecovery

end Conserved

/-! ### Runs -/

/-- What a deque holds. -/
theorem mem_gather_waiting {queues : Dict String (List (Message δ))} {place : String × Message δ} :
    place ∈ Dict.gather waiting queues ↔
      ∃ m ∈ queueOf queues place.1, (place.1, m.published) = place := by
  rw [Dict.mem_gather]
  constructor
  · rintro ⟨⟨name, msgs⟩, hentry, hplace⟩
    obtain ⟨m, hm, rfl⟩ := List.mem_map.1 hplace
    refine ⟨m, ?_, rfl⟩
    rw [queueOf, Dict.get?_eq_some_iff.2 hentry]
    exact hm
  · rintro ⟨m, hm, hplace⟩
    cases hget : queues.get? place.1 with
    | none =>
        rw [queueOf, hget] at hm
        cases hm
    | some msgs =>
        rw [queueOf, hget] at hm
        exact ⟨(place.1, msgs), Dict.get?_eq_some_iff.1 hget, List.mem_map.2 ⟨m, hm, hplace⟩⟩

/-- The places are different when the ids in every deque are. -/
theorem nodup_gather_waiting {queues : Dict String (List (Message δ))}
    (h : ∀ name, ((queueOf queues name).map Message.id).Nodup) :
    ((Dict.gather waiting queues).map spot).Nodup := by
  rw [Dict.gather, List.map_flatMap, List.nodup_flatMap]
  constructor
  · rintro ⟨name, msgs⟩ hentry
    have hids := h name
    rw [queueOf, Dict.get?_eq_some_iff.2 hentry, Option.getD_some] at hids
    have hspots : (waiting name msgs).map spot = (msgs.map Message.id).map (Prod.mk name) := by
      rw [waiting, List.map_map, List.map_map]
      rfl
    rw [hspots]
    exact hids.map (Prod.mk_right_injective name)
  · -- the deques have different names
    refine (List.pairwise_map.1 queues.nodup).imp fun {e e'} hne => ?_
    intro p hp hp'
    obtain ⟨place, hplace, rfl⟩ := List.mem_map.1 hp
    obtain ⟨place', hplace', heq⟩ := List.mem_map.1 hp'
    obtain ⟨m, -, rfl⟩ := List.mem_map.1 hplace
    obtain ⟨m', -, rfl⟩ := List.mem_map.1 hplace'
    exact hne (congrArg Prod.fst heq).symm

/-- After the recovery the deques hold the messages of the log that are not acknowledged. -/
theorem conserved_opened {wal : List (WalEntry δ)}
    (hids : ((enqueued wal).map Message.id).Nodup) : Conserved wal (opened wal) := by
  have hqueue : ∀ name, queueOf (opened wal).node.queues name = unacked wal name := fun name =>
    queueOf_recovered wal hids name
  have hplace : ∀ place, place ∈ located (opened wal).node ↔
      ∃ m ∈ unacked wal place.1, (place.1, m.published) = place := by
    intro place
    rw [located, opened, start, Dict.gather_empty, List.append_nil, mem_gather_waiting, ← hqueue]
    rfl
  have hentered : entered wal (opened wal) =
      ((enqueued wal).filter fun m => m.id ∉ acked wal).map fun m => (m.queue, m.id) :=
    List.append_nil _
  have hsub : ((entered wal (opened wal)).map Prod.snd).Sublist ((enqueued wal).map Message.id) := by
    rw [hentered, List.map_map]
    exact List.filter_sublist.map _
  have hnodup : (((located (opened wal).node).map spot)).Nodup := by
    rw [located, opened, start, Dict.gather_empty, List.append_nil]
    refine nodup_gather_waiting fun name => ?_
    have hunacked : ((unacked wal name).map Message.id).Nodup :=
      hids.sublist (List.filter_sublist.map _)
    rw [← hqueue] at hunacked
    exact hunacked
  refine ⟨rfl, fun name id msg hmsg => (by cases hmsg), fun place hmem => ?_, ?_, ?_, [], rfl, ?_⟩
  · obtain ⟨m, hm, heq⟩ := (hplace place).1 hmem
    rw [← heq]
    exact (mem_unacked.1 hm).2.1
  · rw [publishing, opened, start, List.filterMap_nil, List.map_nil, List.append_nil]
    exact hids.sublist hsub
  · rw [publishing, opened, start, List.filterMap_nil, List.map_nil, List.append_nil]
    exact fun id hid => hsub.subset hid
  · rw [List.append_nil]
    refine (List.perm_ext_iff_of_nodup hnodup ((hids.sublist hsub).of_map _)).2 fun p => ?_
    rw [hentered, List.mem_map, List.mem_map]
    constructor
    · rintro ⟨place, hmem, rfl⟩
      obtain ⟨m, hm, heq⟩ := (hplace place).1 hmem
      obtain ⟨hm, hname, hack⟩ := mem_unacked.1 hm
      refine ⟨m, List.mem_filter.2 ⟨hm, by simpa using hack⟩, ?_⟩
      rw [← heq, hname]
      rfl
    · rintro ⟨m, hm, rfl⟩
      obtain ⟨hm, hack⟩ := List.mem_filter.1 hm
      refine ⟨(m.queue, m.published), (hplace _).2 ⟨m, ?_, rfl⟩, rfl⟩
      exact mem_unacked.2 ⟨hm, rfl, by simpa using hack⟩

/-- **Without a crash the messages are conserved.** -/
theorem conserved_run {config : Config} {wal : List (WalEntry δ)} {s : Service δ}
    (hids : ((enqueued wal).map Message.id).Nodup)
    (h : Run (QueueNode.step config) (FreshIds config) (opened wal) s) : Conserved wal s :=
  h.invariant (fun _ _ _ hI hok hstep => hI.step hok (moves_of_step hstep)) (conserved_opened hids)

/-- The one element of a list with a given value. -/
theorem filter_eq_singleton {α β : Type*} [DecidableEq β] {f : α → β} {l : List α} {x : α}
    (hnodup : (l.map f).Nodup) (hx : x ∈ l) : l.filter (fun y => f y = f x) = [x] := by
  induction l with
  | nil => cases hx
  | cons y l ih =>
      rw [List.map_cons, List.nodup_cons] at hnodup
      rcases List.mem_cons.1 hx with rfl | hx
      · rw [List.filter_cons_of_pos (by simp), List.filter_eq_nil_iff.2]
        intro y hy heq
        exact hnodup.1 (of_decide_eq_true heq ▸ List.mem_map_of_mem hy)
      · rw [List.filter_cons_of_neg, ih hnodup.2 hx]
        intro heq
        exact hnodup.1 (of_decide_eq_true heq ▸ List.mem_map_of_mem hx)

/-- An enqueued message that is not accepted is in one place. -/
theorem Conserved.inOnePlace {wal : List (WalEntry δ)} {s : Service δ} (h : Conserved wal s)
    {name id : String} (hentered : (name, id) ∈ entered wal s) (hid : id ∉ s.accepted) :
    ∃ msg : Message δ, (located s.node).filter (fun place => place.2.id = id) = [(name, msg)] ∧
      msg.queue = name := by
  obtain ⟨out, hout, hperm⟩ := h.conserved
  have hnodup := (List.nodup_append.1 h.nodup).1
  have hmem := hperm.symm.subset hentered
  rcases List.mem_append.1 hmem with hmem | hmem
  · obtain ⟨⟨name', msg⟩, hplace, heq⟩ := List.mem_map.1 hmem
    obtain ⟨rfl, rfl⟩ := Prod.mk.inj heq
    exact ⟨msg, filter_eq_singleton hnodup hplace, h.own _ hplace⟩
  · refine absurd ?_ hid
    rw [← hout]
    exact List.mem_map.2 ⟨_, hmem, rfl⟩

/-- An accepted message is in none. -/
theorem Conserved.not_located {wal : List (WalEntry δ)} {s : Service δ} (h : Conserved wal s)
    {id : String} (hid : id ∈ s.accepted) : ∀ place ∈ located s.node, place.2.id ≠ id :=
  fun _ hplace heq =>
    (List.nodup_append.1 h.nodup).2.2 _ (List.mem_map_of_mem hplace) id hid heq

/-- **A message is in exactly one place until its ack is accepted.**  From a start with any log on,
a message that has been enqueued and not accepted is stored once, in the deque or in the table of
its own queue, where its id is its key; an accepted message is stored nowhere. -/
theorem conservation {config : Config} {wal : List (WalEntry δ)} {s : Service δ}
    (hids : ((enqueued wal).map Message.id).Nodup)
    (h : Run (QueueNode.step config) (FreshIds config) (opened wal) s) :
    (∀ name id, (name, id) ∈ entered wal s → id ∉ s.accepted → ∃ msg : Message δ,
      (located s.node).filter (fun place => place.2.id = id) = [(name, msg)] ∧
        msg.queue = name) ∧
    (∀ id ∈ s.accepted, ∀ place ∈ located s.node, place.2.id ≠ id) ∧ Keyed s.node.processing := by
  have hconserved := conserved_run hids h
  exact ⟨fun _ _ hentered hid => hconserved.inOnePlace hentered hid,
    fun _ hid => hconserved.not_located hid, hconserved.keyed⟩

/-- Two messages are published, and one of them is taken, put back, taken again and acknowledged,
while the publish of the other waits for the log. -/
def takenTwice : List (Action ℕ) :=
  [.publish "jobs" (some 7) 1 0, .walWrite, .walDone, .consume "jobs" 1, .publish "jobs" (some 8) 2 2,
    .walWrite, .requeue 40, .consume "jobs" 41, .ack "jobs" "worker-1", .walDone, .consume "jobs" 42]

theorem conservation_takenTwice :
    ∃ s : Service ℕ, Run (QueueNode.step worker) (FreshIds worker) (opened []) s ∧
      entered [] s = [("jobs", "worker-1"), ("jobs", "worker-2")] ∧ s.accepted = ["worker-1"] ∧
      ∃ msg : Message ℕ, (located s.node).filter (fun place => place.2.id = "worker-2") =
        [("jobs", msg)] := by
  obtain ⟨s, hs, hentered, haccepted⟩ := Run.exists_of_exec (QueueNode.step worker)
    (FreshIds worker) (opened []) takenTwice (fun s =>
      entered [] s = [("jobs", "worker-1"), ("jobs", "worker-2")] ∧ s.accepted = ["worker-1"])
    (by decide +kernel)
  have hids : ((enqueued ([] : List (WalEntry ℕ))).map Message.id).Nodup := List.nodup_nil
  obtain ⟨msg, hmsg, -⟩ := (conservation hids hs).1 "jobs" "worker-2"
    (by rw [hentered]; decide) (by rw [haccepted]; decide)
  exact ⟨s, hs, hentered, haccepted, msg, hmsg⟩

end QueueNode
