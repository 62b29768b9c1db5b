/-
**A delivery is a lease.**

A message that a consumer has got is in flight, and nobody else gets it until its time is over: the
entry `visibility_timeout`, which `_local_dequeue` writes into the message, is the time of the
delivery plus the `visibility_timeout` of the node, and `_requeue_loop` puts the message back only
when the clock has passed it.  Once the ack is accepted the message is gone.

The entry is rewritten whenever the message is taken again, and removed when it is put back.  So
what holds between two deliveries is about both places (`QueueNode.Leased`): in flight, the entry is
not before the end of the lease; in a deque, the clock is after it.

What happens to the messages is noted from the answers and the accepted acks, step by step, in
`QueueNode.events`.

Main definitions:

* `QueueNode.events` — the deliveries and the accepted acks of a run, in their order;
* `QueueNode.Leased` — **the message is in flight until its time is over**;
* `QueueNode.Exclusive` — what the order of two events must not be.

Main results:

* `QueueNode.mem_queueOf_requeueExpired` — what a sweep puts back has expired;
* `QueueNode.Leased.step` — every step keeps a lease;
* `QueueNode.exclusive` — **no lease is broken, and no acknowledged message comes back**.
-/

import DistSync.QueueConservation
import Mathlib.Algebra.Order.Field.Rat
import Mathlib.Tactic.Linarith

set_option relaxedAutoImplicit false
set_option autoImplicit false

namespace QueueNode

open Runs

variable {δ : Type*}

/-! ### Events -/

/-- What can happen to a message that has been enqueued. -/
inductive Event
  | delivered (id : String) (time : ℚ)
  | accepted (id : String)
deriving DecidableEq

/-- The event of a step from `s` to `s'`: the answer to a consume has a message, or the node has
accepted an ack. -/
def event? (s s' : Service δ) : Action δ → Option Event
  | .consume _ time =>
      match s'.answers.getLast? with
      | some (_, .message id _ _) => some (.delivered id time)
      | _ => none
  | .ack _ messageId => if s'.accepted = s.accepted then none else some (.accepted messageId)
  | _ => none

/-- The events of a run, in their order. -/
def events (config : Config) : Service δ → List (Action δ) → List Event
  | _, [] => []
  | s, a :: actions =>
      match step config s a with
      | none => []
      | some s' => (event? s s' a).toList ++ events config s' actions

/-- The reading of `time.time()` in a step. -/
def Action.reading? : Action δ → Option ℚ
  | .publish _ _ _ time => some time
  | .consume _ time => some time
  | .requeue now => some now
  | _ => none

/-- The readings of a run do not decrease. -/
def ReadsForward (actions : List (Action δ)) : Prop :=
  (actions.filterMap Action.reading?).Pairwise (· ≤ ·)

instance (actions : List (Action δ)) : Decidable (ReadsForward actions) :=
  inferInstanceAs (Decidable (List.Pairwise _ _))

/-- The second event may come after the first. -/
def Exclusive (config : Config) : Event → Event → Prop
  | .delivered id time, .delivered id' time' => id' = id → time + config.visibilityTimeout < time'
  | .accepted id, .delivered id' _ => id' ≠ id
  | _, .accepted _ => True

/-- A delivery takes the head of a deque. -/
theorem moves_of_delivered {config : Config} {s s' : Service δ} {a : Action δ} {id : String}
    {time : ℚ} (hmove : Moves config s a s') (h : event? s s' a = some (.delivered id time)) :
    ∃ name msg rest, a = .consume name time ∧ queueOf s.node.queues name = msg :: rest ∧
      msg.id = id ∧ s' = ({ s with node := (localDequeue config s.node name time).1 }.answer
        (.consume name) (.message msg.id msg.data msg.ts)) := by
  cases hmove with
  | @consume queueName time' msg rest hqueue =>
      simp only [event?, Service.answer, List.getLast?_concat, Option.some.injEq,
        Event.delivered.injEq] at h
      obtain ⟨rfl, rfl⟩ := h
      exact ⟨queueName, msg, rest, rfl, hqueue, rfl, rfl⟩
  | @refuse _ request hrequest error status =>
      cases a with
      | consume queueName time' => simp [event?, Service.answer] at h
      | ack queueName messageId => simp [event?, Service.answer] at h
      | _ => cases h
  | empty hempty => simp [event?, Service.answer] at h
  | ack hfound => simp [event?] at h
  | notFound hfound => simp [event?, Service.answer] at h
  | _ => cases h

/-- An accepted ack is recorded. -/
theorem accepted_of_event {config : Config} {s s' : Service δ} {a : Action δ} {id : String}
    (hmove : Moves config s a s') (h : event? s s' a = some (.accepted id)) : id ∈ s'.accepted := by
  cases hmove with
  | @ack queueName messageId hfound =>
      simp only [event?, Option.ite_none_left_eq_some, Option.some.injEq, Event.accepted.injEq] at h
      rw [← h.2]
      exact List.mem_append_right _ (List.mem_singleton_self _)
  | @refuse _ request hrequest error status =>
      cases a with
      | consume queueName time => simp [event?, Service.answer] at h
      | ack queueName messageId => simp [event?, Service.answer] at h
      | _ => cases h
  | consume hqueue => simp [event?, Service.answer] at h
  | empty hempty => simp [event?, Service.answer] at h
  | notFound hfound => simp [event?, Service.answer] at h
  | _ => cases h

/-- Accepted acks stay. -/
theorem accepted_of_moves {config : Config} {s s' : Service δ} {a : Action δ}
    (hmove : Moves config s a s') {id : String} (hid : id ∈ s.accepted) : id ∈ s'.accepted := by
  cases hmove with
  | ack hfound => exact List.mem_append_left _ hid
  | _ => exact hid

/-! ### Deques -/

theorem queueOf_set {queues : Dict String (List (Message δ))} {name name' : String}
    {msgs : List (Message δ)} :
    queueOf (queues.set name msgs) name' = if name' = name then msgs else queueOf queues name' := by
  simp only [queueOf, Dict.get?_set]
  split <;> rfl

theorem queueOf_setdefault {queues : Dict String (List (Message δ))} {name name' : String} :
    queueOf (queues.setdefault name []) name' = queueOf queues name' := by
  simp only [queueOf, Dict.get?_setdefault]
  split
  · next h => rw [h, Option.getD_some]
  · rfl

/-! ### Sweeps -/

section Sweeps

variable {node : DistributedQueueNode δ} {name name' id : String} {m msg : Message δ}
  {msgs : List (Message δ)}

/-- What is in a deque after some messages have been put back. -/
theorem mem_queueOf_requeueMessages
    (hm : m ∈ queueOf (msgs.foldl (requeueMessage name) node).queues name') :
    m ∈ queueOf node.queues name' ∨ ∃ msg ∈ msgs, m = { msg with visibilityTimeout := none } := by
  induction msgs generalizing node with
  | nil => exact .inl hm
  | cons first msgs ih =>
      rcases ih hm with hqueue | ⟨msg, hmsg, rfl⟩
      · rw [requeueMessage, queueOf_pushBack] at hqueue
        split at hqueue
        · next hname =>
            rcases List.mem_append.1 hqueue with hold | hnew
            · exact .inl (hname ▸ hold)
            · exact .inr ⟨first, List.mem_cons_self, List.mem_singleton.1 hnew⟩
        · exact .inl hqueue
      · exact .inr ⟨msg, List.mem_cons_of_mem _ hmsg, rfl⟩

/-- Putting messages back adds nothing to a table. -/
theorem inFlight_requeueMessages
    (h : (inFlight (msgs.foldl (requeueMessage name) node).processing name').get? id = some msg) :
    (inFlight node.processing name').get? id = some msg := by
  induction msgs generalizing node with
  | nil => exact h
  | cons first msgs ih =>
      have hfirst := ih h
      rw [requeueMessage, inFlight_set] at hfirst
      split at hfirst
      · next hname =>
          rw [Dict.get?_erase, Option.ite_none_left_eq_some] at hfirst
          exact hname ▸ hfirst.2
      · exact hfirst

/-- **What a sweep puts back has expired.**  A message in a deque was there before the sweep, or it
comes from a table, and its time is over. -/
theorem mem_queueOf_requeueExpired {now : ℚ}
    (hm : m ∈ queueOf (requeueExpired now node).queues name') :
    m ∈ queueOf node.queues name' ∨ ∃ name id msg,
      (inFlight node.processing name).get? id = some msg ∧ msg.visibilityTimeout.getD 0 < now ∧
        m = { msg with visibilityTimeout := none } := by
  have hloop : ∀ (entries : List (String × Dict String (Message δ)))
      (node : DistributedQueueNode δ), m ∈ queueOf (entries.foldl (fun node e =>
        (expired now e.2).foldl (requeueMessage e.1) node) node).queues name' →
      m ∈ queueOf node.queues name' ∨ ∃ e ∈ entries, ∃ msg ∈ expired now e.2,
        m = { msg with visibilityTimeout := none } := by
    intro entries
    induction entries with
    | nil => exact fun _ hm => .inl hm
    | cons entry entries ih =>
        intro node hm
        rcases ih _ hm with hqueue | ⟨e, he, hmsg⟩
        · rcases mem_queueOf_requeueMessages hqueue with hold | hnew
          · exact .inl hold
          · exact .inr ⟨entry, List.mem_cons_self, hnew⟩
        · exact .inr ⟨e, List.mem_cons_of_mem _ he, hmsg⟩
  refine (hloop node.processing.entries node hm).imp_right fun ⟨e, he, msg, hmsg, hm⟩ => ?_
  obtain ⟨hvalue, hlate⟩ := List.mem_filter.1 hmsg
  obtain ⟨id, hid⟩ := Dict.mem_values_iff.1 hvalue
  refine ⟨e.1, id, msg, ?_, of_decide_eq_true hlate, hm⟩
  rw [inFlight, Dict.get?_eq_some_iff.2 he]
  exact hid

/-- A sweep adds nothing to a table. -/
theorem inFlight_requeueExpired {now : ℚ}
    (h : (inFlight (requeueExpired now node).processing name').get? id = some msg) :
    (inFlight node.processing name').get? id = some msg := by
  unfold requeueExpired at h
  generalize node.processing.entries = entries at h
  induction entries generalizing node with
  | nil => exact h
  | cons entry entries ih => exact inFlight_requeueMessages (ih h)

end Sweeps

/-! ### Leases -/

/-- **The message `id`, which was delivered at time `t`, is in flight until its time is over.**  The
clock has read `now` last. -/
structure Leased (config : Config) (id : String) (t now : ℚ) (s : Service δ) : Prop where
  past : t ≤ now
  minted : id ∈ s.minted
  enqueued : id ∉ publishing s.node
  inFlight : ∀ name msg, (inFlight s.node.processing name).get? id = some msg →
    t + config.visibilityTimeout ≤ msg.visibilityTimeout.getD 0
  waiting : ∀ name, ∀ m ∈ queueOf s.node.queues name, m.id = id →
    t + config.visibilityTimeout < now

/-- A delivery is later than the end of every lease of the message. -/
theorem Leased.over {config : Config} {id : String} {t now time : ℚ} {s : Service δ} {name : String}
    {msg : Message δ} {rest : List (Message δ)} (h : Leased config id t now s)
    (hqueue : queueOf s.node.queues name = msg :: rest) (hid : msg.id = id) (htime : now ≤ time) :
    t + config.visibilityTimeout < time :=
  lt_of_lt_of_le (h.waiting name msg (hqueue ▸ List.mem_cons_self) hid) htime

namespace Conserved

variable {wal : List (WalEntry δ)} {s : Service δ} {name id : String} {msg : Message δ}

/-- A message in memory has got its id, and is not being published. -/
theorem minted_of_located (h : Conserved wal s) {place : String × Message δ}
    (hplace : place ∈ located s.node) :
    place.2.id ∈ s.minted ∧ place.2.id ∉ publishing s.node := by
  obtain ⟨out, -, hperm⟩ := h.conserved
  have hentered : place.2.id ∈ (entered wal s).map Prod.snd := by
    refine List.mem_map.2 ⟨spot place, hperm.subset ?_, rfl⟩
    exact List.mem_append_left _ (List.mem_map_of_mem hplace)
  exact ⟨h.minted _ (List.mem_append_left _ hentered),
    fun hpublishing => (List.nodup_append.1 h.fresh).2.2 _ hentered _ hpublishing rfl⟩

/-- A message in a table is in memory. -/
theorem located_of_inFlight (hfound : (inFlight s.node.processing name).get? id = some msg) :
    (name, msg.published) ∈ Dict.gather underway s.node.processing :=
  (gather_drop hfound).symm.subset List.mem_cons_self

/-- A message in flight is nowhere else. -/
theorem alone (h : Conserved wal s)
    (hfound : (inFlight s.node.processing name).get? id = some msg) :
    (∀ name', ∀ m ∈ queueOf s.node.queues name', m.id ≠ id) ∧
      ∀ name' msg', (inFlight s.node.processing name').get? id = some msg' → name' = name := by
  have hplace := located_of_inFlight hfound
  have hids := (List.nodup_append.1 h.nodup).1
  have hid : (name, msg.published).2.id = id := h.keyed name id msg hfound
  constructor
  · intro name' m hm hsame
    rw [located, List.map_append] at hids
    refine (List.nodup_append.1 hids).2.2 id ?_ id ?_ rfl
    · exact List.mem_map.2 ⟨(name', m.published), mem_gather_waiting.2 ⟨m, hm, rfl⟩, hsame⟩
    · exact List.mem_map.2 ⟨_, hplace, hid⟩
  · intro name' msg' hfound'
    have hid' : (name', msg'.published).2.id = id := h.keyed name' id msg' hfound'
    have hsame := List.inj_on_of_nodup_map hids
      (List.mem_append_right _ (located_of_inFlight hfound')) (List.mem_append_right _ hplace)
      (hid'.trans hid.symm)
    exact congrArg Prod.fst hsame

end Conserved

/-! ### What a step keeps -/

/-- The clock after a step. -/
def Action.clock (a : Action δ) (now : ℚ) : ℚ := a.reading?.getD now

theorem le_clock {a : Action δ} {now : ℚ} (h : ∀ time ∈ a.reading?, now ≤ time) :
    now ≤ a.clock now := by
  rw [Action.clock]
  cases hreading : a.reading? with
  | none => exact le_refl now
  | some time => exact h time hreading

namespace Leased

variable {config : Config} {id : String} {t now now' : ℚ} {s s' : Service δ} {a : Action δ}

/-- A lease begins with a delivery. -/
theorem of_delivered {wal : List (WalEntry δ)} {name : String} {msg : Message δ}
    {rest : List (Message δ)} (hafter : Conserved wal
      { s with node := (localDequeue config s.node name t).1 })
    (hqueue : queueOf s.node.queues name = msg :: rest) :
    Leased config msg.id t t { s with node := (localDequeue config s.node name t).1 } := by
  have hfound : (QueueNode.inFlight (localDequeue config s.node name t).1.processing name).get?
      msg.id = some { msg with visibilityTimeout := some (t + config.visibilityTimeout) } := by
    rw [localDequeue, hqueue]
    simp only [inFlight_set, if_true]
    exact Dict.get?_set_self
  obtain ⟨hminted, hpublishing⟩ := hafter.minted_of_located
    (List.mem_append_right _ (Conserved.located_of_inFlight hfound))
  obtain ⟨hnotWaiting, hnotElsewhere⟩ := hafter.alone hfound
  refine ⟨le_refl t, hminted, hpublishing, fun name' msg' hfound' => ?_, fun name' m hm hsame => ?_⟩
  · obtain rfl := hnotElsewhere name' msg' hfound'
    rw [hfound] at hfound'
    rw [← Option.some.inj hfound', Option.getD_some]
  · exact absurd hsame (hnotWaiting name' m hm)

theorem of_frame (h : Leased config id t now s) (hnow : now ≤ now')
    (hminted : s'.minted = s.minted) (hpublishing : publishing s'.node ⊆ publishing s.node)
    (hinFlight : ∀ name msg, (QueueNode.inFlight s'.node.processing name).get? id = some msg →
      (QueueNode.inFlight s.node.processing name).get? id = some msg)
    (hwaiting : ∀ name, ∀ m ∈ queueOf s'.node.queues name, m.id = id →
      m ∈ queueOf s.node.queues name) :
    Leased config id t now' s' where
  past := h.past.trans hnow
  minted := hminted ▸ h.minted
  enqueued := fun hid => h.enqueued (hpublishing hid)
  inFlight := fun name msg hfound => h.inFlight name msg (hinFlight name msg hfound)
  waiting := fun name m hm hid =>
    lt_of_lt_of_le (h.waiting name m (hwaiting name m hm hid) hid) hnow

/-- A step that leaves the messages where they are. -/
theorem of_same (h : Leased config id t now s) (hnow : now ≤ now') (hminted : s'.minted = s.minted)
    (hqueues : s'.node.queues = s.node.queues)
    (hprocessing : s'.node.processing = s.node.processing)
    (hwriters : s'.node.writers = s.node.writers) : Leased config id t now' s' := by
  refine h.of_frame hnow hminted ?_ (fun _ _ hfound => hprocessing ▸ hfound)
    fun _ _ hm _ => hqueues ▸ hm
  rw [publishing, publishing, hwriters]
  exact fun _ hid => hid

/-- A consume takes the message only when the lease is over, and gives it a later end. -/
theorem dequeue (h : Leased config id t now s) {time : ℚ} (htime : now ≤ time) (name : String) :
    Leased config id t time { s with node := (localDequeue config s.node name time).1 } := by
  unfold localDequeue
  split
  · refine h.of_frame htime rfl (fun _ hid => hid) (fun _ _ hfound => hfound) ?_
    intro name' m hm _
    rw [queueOf_setdefault] at hm
    exact hm
  · next msg rest hqueue =>
      refine ⟨h.past.trans htime, h.minted, h.enqueued, fun name' msg' hfound => ?_,
        fun name' m hm hid => ?_⟩
      · simp only [inFlight_set] at hfound
        split at hfound
        · next hname =>
            rw [Dict.get?_set] at hfound
            split at hfound
            · -- taken again, and not before the time of the first delivery
              rw [← Option.some.inj hfound, Option.getD_some]
              linarith [h.past]
            · exact h.inFlight name msg' hfound
        · exact h.inFlight name' msg' hfound
      · refine lt_of_lt_of_le (h.waiting name' m ?_ hid) htime
        simp only [queueOf_set] at hm
        split at hm
        · next hname =>
            rw [hname, hqueue]
            exact List.mem_cons_of_mem _ hm
        · exact hm

/-- A sweep puts the message back only when the lease is over. -/
theorem requeue (h : Leased config id t now s) {time : ℚ} (htime : now ≤ time)
    (hkeyed : Keyed s.node.processing) :
    Leased config id t time { s with node := requeueExpired time s.node } := by
  have hpublishing : publishing (requeueExpired time s.node) = publishing s.node := by
    rw [publishing, publishing, (requeueExpired_frame s.node time).1]
  refine ⟨h.past.trans htime, h.minted, ?_, fun name msg hfound => ?_, fun name m hm hid => ?_⟩
  · rw [hpublishing]
    exact h.enqueued
  · exact h.inFlight name msg (inFlight_requeueExpired hfound)
  · rcases mem_queueOf_requeueExpired hm with hold | ⟨name', id', msg, hfound, hlate, rfl⟩
    · exact lt_of_lt_of_le (h.waiting name m hold hid) htime
    · have hkey : msg.id = id' := hkeyed name' id' msg hfound
      exact lt_of_le_of_lt (h.inFlight name' msg (hid ▸ hkey ▸ hfound)) hlate

/-- A publish with a new id waits for the log. -/
theorem publish (h : Leased config id t now s) (hnow : now ≤ now') {msg : Message δ}
    (hfresh : msg.id ∉ s.minted) :
    Leased config id t now' { s with
      node := { s.node with writers := s.node.writers ++ [.publish msg] }
      minted := s.minted ++ [msg.id] } := by
  refine ⟨h.past.trans hnow, List.mem_append_left _ h.minted, fun hid => ?_, h.inFlight,
    fun name m hm hid => lt_of_lt_of_le (h.waiting name m hm hid) hnow⟩
  rw [publishing, List.filterMap_append, List.map_append] at hid
  rcases List.mem_append.1 hid with hold | hnew
  · exact h.enqueued hold
  · obtain rfl := List.mem_singleton.1 hnew
    exact hfresh h.minted

/-- An accepted ack takes a message out of a table. -/
theorem ack (h : Leased config id t now s) (hnow : now ≤ now') (name messageId : String) :
    Leased config id t now' { s with
      node := { s.node with
        processing := (s.node.processing.setdefault name ∅).set name
          ((QueueNode.inFlight s.node.processing name).erase messageId)
        writers := s.node.writers ++ [.ack name messageId] }
      accepted := s.accepted ++ [messageId] } := by
  refine h.of_frame hnow rfl ?_ (fun name' msg hmsg => ?_) fun _ _ hm _ => hm
  · rw [publishing, messages_ack]
    exact fun _ hid => hid
  · rw [inFlight_set] at hmsg
    split at hmsg
    · next hname =>
        rw [Dict.get?_erase, Option.ite_none_left_eq_some] at hmsg
        exact hname ▸ hmsg.2
    · rw [inFlight_setdefault] at hmsg
      exact hmsg

/-- The first handler answers; a message that it has published is another one. -/
theorem complete (h : Leased config id t now s) (hnow : now ≤ now') {writer : Writer δ}
    {rest : List (Writer δ)} (hwriters : s.node.writers = writer :: rest) :
    Leased config id t now' { s with
      node := writer.complete { s.node with writers := rest, appended := false } } := by
  have hpublishing : publishing s.node =
      (writer.message?.toList ++ rest.filterMap Writer.message?).map Message.id := by
    rw [publishing, hwriters, List.filterMap_cons]
    cases writer <;> rfl
  cases writer with
  | ack name messageId =>
      refine h.of_frame hnow rfl ?_ (fun _ _ hfound => hfound) fun _ _ hm _ => hm
      rw [hpublishing]
      exact fun _ hid => hid
  | publish msg =>
      refine h.of_frame hnow rfl ?_ (fun _ _ hfound => hfound) fun name m hm hid => ?_
      · rw [hpublishing]
        exact fun _ hid => List.mem_cons_of_mem _ hid
      · have hne : msg.id ≠ id := fun hsame => h.enqueued (by
          rw [hpublishing, ← hsame]
          exact List.mem_cons_self)
        rw [Writer.complete, queueOf_pushBack] at hm
        split at hm
        · next hname =>
            rcases List.mem_append.1 hm with hold | hnew
            · exact hname ▸ hold
            · exact absurd (List.mem_singleton.1 hnew ▸ hid) hne
        · exact hm

/-- **Every step keeps a lease.** -/
theorem step (h : Leased config id t now s) (hkeyed : Keyed s.node.processing)
    (hrecovery : s.node.recovery = none) (hok : FreshIds config s a)
    (hclock : ∀ time ∈ a.reading?, now ≤ time) (hmove : Moves config s a s') :
    Leased config id t (a.clock now) s' := by
  have hnow := le_clock hclock
  cases hmove with
  | refuse hrequest error status => exact h.of_same hnow rfl rfl rfl rfl
  | publish hname => exact h.publish hnow hok
  | @empty queueName time hempty =>
      exact (h.dequeue (hclock time rfl) queueName).of_same (le_refl _) rfl rfl rfl rfl
  | @consume queueName time msg rest hqueue =>
      exact (h.dequeue (hclock time rfl) queueName).of_same (le_refl _) rfl rfl rfl rfl
  | @ack queueName messageId hfound => exact h.ack hnow queueName messageId
  | @notFound queueName messageId hfound =>
      refine h.of_frame hnow rfl (fun _ hid => hid) (fun name msg hmsg => ?_) fun _ _ hm _ => hm
      rw [Service.answer, inFlight_setdefault] at hmsg
      exact hmsg
  | @requeue time hidle => exact h.requeue (hclock time rfl) hkeyed
  | walWrite hwriters happended => exact h.of_same hnow rfl rfl rfl rfl
  | walFail hwriters happended => exact h.of_same hnow rfl rfl rfl rfl
  | walDone hwriters happended =>
      exact (h.complete hnow hwriters).of_same (le_refl _) rfl rfl rfl rfl
  | crash => exact hok.elim
  | recoverLine hrunning hentry hatEnd =>
      rw [hrecovery] at hrunning
      cases hrunning
  | recoverEnd hrunning hposition =>
      rw [hrecovery] at hrunning
      cases hrunning
  | recoverFill hrunning hatEnd =>
      rw [hrecovery] at hrunning
      cases hrunning

end Leased

/-! ### Runs -/

section Runs

variable {config : Config} {wal : List (WalEntry δ)} {s s' : Service δ} {a : Action δ}
  {actions : List (Action δ)} {now : ℚ}

theorem ReadsForward.tail (h : ReadsForward (a :: actions)) : ReadsForward actions := by
  refine List.Pairwise.sublist ?_ h
  exact (List.sublist_cons_self a actions).filterMap _

/-- A reading is not before the readings of the earlier steps. -/
theorem ReadsForward.clock_le (h : ReadsForward (a :: actions))
    (hclock : ∀ time ∈ (a :: actions).filterMap Action.reading?, now ≤ time) :
    (∀ time ∈ a.reading?, now ≤ time) ∧
      ∀ time ∈ actions.filterMap Action.reading?, a.clock now ≤ time := by
  rw [ReadsForward, List.filterMap_cons] at h
  rw [List.filterMap_cons] at hclock
  rw [Action.clock]
  cases hreading : a.reading? with
  | none =>
      rw [hreading] at hclock
      exact ⟨fun time htime => absurd htime (Option.not_mem_none time), hclock⟩
  | some reading =>
      rw [hreading] at h hclock
      refine ⟨fun time htime => ?_, (List.pairwise_cons.1 h).1⟩
      rw [← Option.mem_some.1 htime]
      exact hclock reading List.mem_cons_self

theorem ReadsForward.exists_le (h : ReadsForward actions) :
    ∃ now, ∀ time ∈ actions.filterMap Action.reading?, now ≤ time := by
  rw [ReadsForward] at h
  cases hreadings : actions.filterMap Action.reading? with
  | nil => exact ⟨0, fun time htime => absurd htime List.not_mem_nil⟩
  | cons first readings =>
      rw [hreadings] at h
      refine ⟨first, fun time htime => ?_⟩
      rcases List.mem_cons.1 htime with rfl | hlater
      · exact le_refl time
      · exact (List.pairwise_cons.1 h).1 time hlater

theorem events_cons {s₁ : Service δ} (hstep : step config s a = some s₁) :
    events config s (a :: actions) = (event? s s₁ a).toList ++ events config s₁ actions := by
  rw [events, hstep]

/-- **The rule for events**: what a step preserves and its event meets, all events of a run meet. -/
theorem forall_events {I : ℚ → Service δ → Prop} {P : Event → Prop}
    (hI : ∀ now s a s', I now s → FreshIds config s a → (∀ time ∈ a.reading?, now ≤ time) →
      Moves config s a s' → I (a.clock now) s' ∧ ∀ e ∈ event? s s' a, P e)
    (hs : I now s) (h : exec (step config) (FreshIds config) s actions = some s')
    (hforward : ReadsForward actions)
    (hclock : ∀ time ∈ actions.filterMap Action.reading?, now ≤ time) :
    ∀ e ∈ events config s actions, P e := by
  induction actions generalizing s now with
  | nil => exact fun e he => absurd he List.not_mem_nil
  | cons a actions ih =>
      obtain ⟨hok, s₁, hstep, hrest⟩ := Run.exec_cons.1 h
      obtain ⟨hreading, hlater⟩ := hforward.clock_le hclock
      obtain ⟨hnext, hevent⟩ := hI now s a s₁ hs hok hreading (moves_of_step hstep)
      intro e he
      rw [events_cons hstep] at he
      rcases List.mem_append.1 he with hhead | htail
      · exact hevent e (Option.mem_toList.1 hhead)
      · exact ih hnext hrest hforward.tail hlater e htail

/-- After a delivery no event breaks the lease. -/
theorem exclusive_delivered {id : String} {t : ℚ} (hconserved : Conserved wal s)
    (hleased : Leased config id t t s)
    (h : exec (step config) (FreshIds config) s actions = some s') (hforward : ReadsForward actions)
    (hclock : ∀ time ∈ actions.filterMap Action.reading?, t ≤ time) :
    ∀ e ∈ events config s actions, Exclusive config (.delivered id t) e := by
  refine forall_events (I := fun now s => Conserved wal s ∧ Leased config id t now s)
    (fun now s a s' hI hok hreading hmove => ?_) ⟨hconserved, hleased⟩ h hforward hclock
  obtain ⟨hC, hL⟩ := hI
  refine ⟨⟨hC.step hok hmove, hL.step hC.keyed hC.recovery hok hreading hmove⟩, fun e he => ?_⟩
  cases e with
  | accepted id' => trivial
  | delivered id' time =>
      intro hid
      obtain ⟨name, msg, rest, rfl, hqueue, rfl, -⟩ := moves_of_delivered hmove he
      exact hL.over hqueue hid (hreading time rfl)

/-- After an accepted ack the message is not delivered. -/
theorem exclusive_accepted {id : String} (hconserved : Conserved wal s) (hid : id ∈ s.accepted)
    (h : exec (step config) (FreshIds config) s actions = some s') (hforward : ReadsForward actions)
    (hclock : ∀ time ∈ actions.filterMap Action.reading?, now ≤ time) :
    ∀ e ∈ events config s actions, Exclusive config (.accepted id) e := by
  refine forall_events (I := fun _ s => Conserved wal s ∧ id ∈ s.accepted)
    (fun now s a s' hI hok hreading hmove => ?_) ⟨hconserved, hid⟩ h hforward hclock
  obtain ⟨hC, haccepted⟩ := hI
  refine ⟨⟨hC.step hok hmove, accepted_of_moves hmove haccepted⟩, fun e he => ?_⟩
  cases e with
  | accepted id' => trivial
  | delivered id' time =>
      obtain ⟨name, msg, rest, rfl, hqueue, rfl, -⟩ := moves_of_delivered hmove he
      refine hC.not_located haccepted (name, msg.published) ?_
      exact List.mem_append_left _
        (mem_gather_waiting.2 ⟨msg, hqueue ▸ List.mem_cons_self, rfl⟩)

/-- No event of a run breaks a lease that an earlier one began. -/
theorem exclusive_run (hconserved : Conserved wal s)
    (h : exec (step config) (FreshIds config) s actions = some s')
    (hforward : ReadsForward actions) :
    (events config s actions).Pairwise (Exclusive config) := by
  induction actions generalizing s with
  | nil => exact List.Pairwise.nil
  | cons a actions ih =>
      obtain ⟨hok, s₁, hstep, hrest⟩ := Run.exec_cons.1 h
      have hmove := moves_of_step hstep
      have hconserved₁ := hconserved.step hok hmove
      rw [events_cons hstep]
      cases hevent : event? s s₁ a with
      | none => exact ih hconserved₁ hrest hforward.tail
      | some e =>
          refine List.pairwise_cons.2 ⟨?_, ih hconserved₁ hrest hforward.tail⟩
          cases e with
          | accepted id =>
              obtain ⟨now, hnow⟩ := hforward.tail.exists_le
              exact exclusive_accepted hconserved₁ (accepted_of_event hmove hevent) hrest
                hforward.tail hnow
          | delivered id t =>
              obtain ⟨name, msg, rest, rfl, hqueue, rfl, rfl⟩ := moves_of_delivered hmove hevent
              have hleased : Leased config msg.id t t _ :=
                .of_delivered (hconserved.dequeue name t) hqueue
              exact exclusive_delivered hconserved₁ (hleased.of_same (le_refl t) rfl rfl rfl rfl)
                hrest hforward.tail (List.pairwise_cons.1 hforward).1

/-- **No lease is broken, and no acknowledged message comes back.**  From a start with any log on,
when the ids of all messages are different and the readings of the clock do not decrease, a message
that is delivered at time `t` is not delivered again before the clock has passed `t` plus the
`visibility_timeout`, and a message whose ack has been accepted is not delivered again at all. -/
theorem exclusive (hids : ((enqueued wal).map Message.id).Nodup)
    (h : exec (step config) (FreshIds config) (opened wal) actions = some s)
    (hforward : ReadsForward actions) :
    (events config (opened wal) actions).Pairwise (Exclusive config) :=
  exclusive_run (conserved_opened hids) h hforward

end Runs

/-- Of the messages of `takenTwice` one is delivered at time 1 and again at time 41, when it is
acknowledged, and the other at time 42. -/
theorem exclusive_takenTwice :
    events worker (opened []) takenTwice =
      [.delivered "worker-1" 1, .delivered "worker-1" 41, .accepted "worker-1",
        .delivered "worker-2" 42] ∧
      (events worker (opened []) takenTwice).Pairwise (Exclusive worker) := by
  obtain ⟨s, hs⟩ := Option.isSome_iff_exists.1
    (show (exec (step worker) (FreshIds worker) (opened []) takenTwice).isSome = true by
      decide +kernel)
  exact ⟨by decide +kernel, exclusive List.nodup_nil hs (by decide +kernel)⟩

end QueueNode
