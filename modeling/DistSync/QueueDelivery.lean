/-
**Every message is delivered until it is acknowledged.**

A message leaves the queue for good by an ack alone.  A consumer that takes it and dies without one
leaves it in `processing`, and the sweep that finds its time over puts it back.  From there it comes
to the head of its deque: what goes into a deque goes in at the end, so every delivery brings the
others one place forward.  So a message that was enqueued and not acknowledged is delivered, again
or for the first time, when a sweep has found its time over and the queue has made as many
deliveries as messages were in it, whatever publishes, acks and other sweeps come in between.

Main definitions:

* `QueueNode.line` — the ids that were delivered from a queue, and those that are next.

Main results:

* `QueueNode.not_expired_requeueExpired` — a sweep leaves nothing in flight whose time is over;
* `QueueNode.line_isPrefix` — the line only grows at its end;
* `QueueNode.atLeastOnce` — **an unacknowledged message is delivered again**.
-/

import DistSync.QueueOrder

set_option relaxedAutoImplicit false
set_option autoImplicit false

namespace QueueNode

open Runs

variable {δ : Type*}

/-! ### What a sweep leaves in flight -/

section Sweeps

variable {node : DistributedQueueNode δ} {name id : String} {msg : Message δ}
  {msgs : List (Message δ)} {now : ℚ}

/-- What is in flight after messages have been put back is none of them. -/
theorem ne_of_inFlight_requeueMessages
    (h : (inFlight (msgs.foldl (requeueMessage name) node).processing name).get? id = some msg) :
    ∀ m ∈ msgs, m.id ≠ id := by
  induction msgs generalizing node with
  | nil => exact fun m hm => by cases hm
  | cons first msgs ih =>
      intro m hm
      rcases List.mem_cons.1 hm with rfl | hm
      · have hfirst : (inFlight (requeueMessage name node m).processing name).get? id = some msg :=
          inFlight_requeueMessages h
        rw [requeueMessage, inFlight_set, if_pos rfl, Dict.get?_erase,
          Option.ite_none_left_eq_some] at hfirst
        exact fun heq => hfirst.1 heq.symm
      · exact ih h m hm

/-- The loop over the tables takes nothing in. -/
theorem inFlight_requeueTables {entries : List (String × Dict String (Message δ))}
    (h : (inFlight (entries.foldl (fun node e =>
      (expired now e.2).foldl (requeueMessage e.1) node) node).processing name).get? id =
        some msg) : (inFlight node.processing name).get? id = some msg := by
  induction entries generalizing node with
  | nil => exact h
  | cons entry entries ih => exact inFlight_requeueMessages (ih h)

/-- **A sweep leaves nothing in flight whose time is over.** -/
theorem not_expired_requeueExpired (hkeyed : Keyed node.processing)
    (h : (inFlight (requeueExpired now node).processing name).get? id = some msg) :
    ¬ msg.visibilityTimeout.getD 0 < now := by
  have hloop : ∀ (entries : List (String × Dict String (Message δ)))
      (node : DistributedQueueNode δ) (table : Dict String (Message δ)), (name, table) ∈ entries →
      (inFlight (entries.foldl (fun node e =>
        (expired now e.2).foldl (requeueMessage e.1) node) node).processing name).get? id =
          some msg → ∀ m ∈ expired now table, m.id ≠ id := by
    intro entries
    induction entries with
    | nil => exact fun _ _ hmem => by cases hmem
    | cons entry entries ih =>
        intro node table hmem hfound
        rcases List.mem_cons.1 hmem with rfl | hmem
        · exact ne_of_inFlight_requeueMessages (inFlight_requeueTables hfound)
        · exact ih _ table hmem hfound
  intro hlate
  have hbefore := inFlight_requeueExpired h
  -- the table of the message is one of those that the sweep goes through
  cases htable : node.processing.get? name with
  | none =>
      rw [inFlight, htable] at hbefore
      cases hbefore
  | some table =>
      have hbefore' := hbefore
      rw [inFlight, htable] at hbefore'
      refine hloop node.processing.entries node table (Dict.get?_eq_some_iff.1 htable) h msg ?_
        (hkeyed name id msg hbefore)
      exact List.mem_filter.2 ⟨Dict.mem_values_iff.2 ⟨id, hbefore'⟩, decide_eq_true hlate⟩

end Sweeps

/-! ### The line -/

/-- **The line of a queue**: the ids that were delivered from it, and behind them the ids in its
deque. -/
def line (name : String) (s : Service δ) : List String :=
  deliveries name s ++ (queueOf s.node.queues name).map Message.id

section Line

variable {wal : List (WalEntry δ)} {name : String} {s s' : Service δ} {config : Config}
  {a : Action δ}

/-- An answer that delivers nothing leaves the line as it is. -/
theorem line_answer (name : String) (s : Service δ) {request : Request δ} {response : Response δ}
    (hdelivered : deliveredBy (request, response) = none) :
    line name (s.answer request response) = line name s := by
  rw [line, deliveries_answer, hdelivered]
  exact congrArg (· ++ _) (List.append_nil _)

/-- **The line only grows at its end**: a consume moves its front from the deque to the deliveries,
and publishes and sweeps append to it. -/
theorem Moves.line_isPrefix (h : Moves config s a s') (hrecovery : s.node.recovery = none)
    (hok : FreshIds config s a) (name : String) : line name s <+: line name s' := by
  have hgrow : ∀ {s' : Service δ} (back : List (Message δ)),
      deliveries name s' = deliveries name s →
      queueOf s'.node.queues name = queueOf s.node.queues name ++ back →
      line name s <+: line name s' := by
    intro s' back hdeliveries hqueue
    rw [line, line, hdeliveries, hqueue, List.map_append, ← List.append_assoc]
    exact List.prefix_append _ _
  have hsame : ∀ {s' : Service δ}, deliveries name s' = deliveries name s →
      queueOf s'.node.queues name = queueOf s.node.queues name → line name s <+: line name s' :=
    fun hdeliveries hqueue => hgrow [] hdeliveries (hqueue.trans (List.append_nil _).symm)
  cases h with
  | @refuse _ request hrequest error status =>
      rw [line_answer name s (by cases request <;> rfl)]
  | publish hname => exact hsame rfl rfl
  | @empty queueName time hempty =>
      rw [line_answer name _ rfl]
      refine hsame rfl ?_
      simp only [localDequeue, hempty]
      exact queueOf_setdefault
  | @consume queueName time msg rest hqueue =>
      by_cases hname : name = queueName
      · subst hname
        -- the head of the deque is the next delivery
        have hline : line name ({ s with node := (localDequeue config s.node name time).1 }.answer
            (.consume name) (.message msg.id msg.data msg.ts)) = line name s := by
          rw [line, deliveries_answer, line, hqueue]
          simp [localDequeue, hqueue, Service.answer, queueOf_set, deliveredBy, idsOf, deliveries]
        rw [hline]
      · refine hsame ?_ ?_
        · rw [deliveries_answer]
          simp [deliveredBy, idsOf, Ne.symm hname, deliveries]
        · simp only [Service.answer, localDequeue, hqueue, queueOf_set, if_neg hname]
  | ack hfound => exact hsame rfl rfl
  | notFound hfound =>
      rw [line_answer name _ rfl]
      exact hsame rfl rfl
  | @requeue now hnone =>
      obtain ⟨back, hback, -⟩ := queueOf_requeueExpired s.node name now
      exact hgrow back rfl hback
  | walWrite => exact hsame rfl rfl
  | walFail => exact hsame rfl rfl
  | @walDone writer rest hwriters happended =>
      cases writer with
      | publish msg =>
          rw [line_answer name _ rfl]
          by_cases hname : name = msg.queue
          · subst hname
            refine hgrow [msg] rfl ?_
            simp only [Writer.complete]
            rw [queueOf_pushBack, if_pos rfl]
          · refine hsame rfl ?_
            simp only [Writer.complete]
            rw [queueOf_pushBack, if_neg hname]
      | ack queueName messageId =>
          rw [line_answer name _ rfl]
          exact hsame rfl rfl
  | crash => exact hok.elim
  | recoverLine hsome hentry hatEnd =>
      rw [hrecovery] at hsome
      cases hsome
  | recoverEnd hsome hposition =>
      rw [hrecovery] at hsome
      cases hsome
  | recoverFill hsome hatEnd =>
      rw [hrecovery] at hsome
      cases hsome

end Line

/-! ### Deliveries -/

section Delivery

variable {wal : List (WalEntry δ)} {name id : String} {s s' s₁ : Service δ} {config : Config}
  {now : ℚ}

/-- A message that was enqueued and is not accepted is in its deque or in flight. -/
theorem Conserved.waits_or_inFlight (h : Conserved wal s) (hentered : (name, id) ∈ entered wal s)
    (hid : id ∉ s.accepted) : (∃ msg ∈ queueOf s.node.queues name, msg.id = id) ∨
      ∃ msg, (inFlight s.node.processing name).get? id = some msg := by
  obtain ⟨msg, hplace, -⟩ := h.inOnePlace hentered hid
  have hmem : (name, msg) ∈ (located s.node).filter fun place => place.2.id = id := by
    rw [hplace]
    exact List.mem_singleton_self _
  obtain ⟨hlocated, hmsg⟩ := List.mem_filter.1 hmem
  have hmsg' : msg.id = id := of_decide_eq_true hmsg
  rcases List.mem_append.1 hlocated with hwaits | hflies
  · obtain ⟨m, hm, heq⟩ := mem_gather_waiting.1 hwaits
    obtain rfl := (Prod.mk.inj heq).2
    exact .inl ⟨m, hm, hmsg'⟩
  · obtain ⟨⟨queueName, table⟩, hentry, hm⟩ := Dict.mem_gather.1 hflies
    obtain ⟨m, hvalue, heq⟩ := List.mem_map.1 hm
    obtain ⟨rfl, rfl⟩ := Prod.mk.inj heq
    obtain ⟨key, hkey⟩ := Dict.mem_values_iff.1 hvalue
    have hfound : (inFlight s.node.processing queueName).get? key = some m := by
      rw [inFlight, Dict.get?_eq_some_iff.2 hentry]
      exact hkey
    -- the key of the message in its table is its id
    obtain rfl : m.id = key := h.keyed queueName key m hfound
    exact .inr ⟨m, by rw [← hmsg']; exact hfound⟩

/-- **In a run without crashes the line only grows at its end.** -/
theorem line_isPrefix (hC : Conserved wal s)
    (h : Run (QueueNode.step config) (FreshIds config) s s') (name : String) :
    line name s <+: line name s' := by
  have hboth := h.invariant (I := fun s' => Conserved wal s' ∧ line name s <+: line name s')
    (fun _ _ _ hI hok hstep => ⟨hI.1.step hok (moves_of_step hstep),
      hI.2.trans ((moves_of_step hstep).line_isPrefix hI.1.recovery hok name)⟩)
    ⟨hC, List.prefix_refl _⟩
  exact hboth.2

/-- What is in a deque is delivered by as many deliveries as there are messages in it. -/
theorem mem_deliveries_of_line {l' : List String} (hline : line name s <+: line name s')
    (hl : deliveries name s' = deliveries name s ++ l')
    (hcount : (queueOf s.node.queues name).length ≤ l'.length)
    (hmem : id ∈ (queueOf s.node.queues name).map Message.id) : id ∈ l' := by
  rw [line, line, hl, List.append_assoc, List.prefix_append_right_inj] at hline
  have hpre := List.prefix_of_prefix_length_le hline (List.prefix_append l' _)
    (by rw [List.length_map]; exact hcount)
  exact hpre.subset hmem

/-- Answers stay given. -/
theorem Moves.answers_isPrefix {a : Action δ} (h : Moves config s a s') :
    s.answers <+: s'.answers := by
  cases h
  case refuse | empty | consume | notFound | walDone => exact List.prefix_append _ _
  all_goals exact List.prefix_refl _

theorem deliveries_isPrefix (h : Run (QueueNode.step config) (FreshIds config) s s')
    (name : String) : deliveries name s <+: deliveries name s' := by
  have hanswers : s.answers <+: s'.answers :=
    h.preorder (R := fun s s' => s.answers <+: s'.answers) (fun _ => List.prefix_refl _)
      (fun _ _ _ => List.IsPrefix.trans) fun _ _ _ hstep => (moves_of_step hstep).answers_isPrefix
  exact ((hanswers.filterMap deliveredBy).filter _).map Prod.snd

/-- **At least once.**  From a start with any log on, a message that was enqueued and not
acknowledged is delivered, again or for the first time, when a sweep comes after the time of its
last delivery is over, and from then on the queue makes as many deliveries as there are messages in
its deque, whatever publishes, consumes, acks and sweeps, of this and other queues, come in
between. -/
theorem atLeastOnce (hids : ((enqueued wal).map Message.id).Nodup)
    (h : Run (QueueNode.step config) (FreshIds config) (opened wal) s)
    (hentered : (name, id) ∈ entered wal s) (hid : id ∉ s.accepted)
    (hover : ∀ msg, (inFlight s.node.processing name).get? id = some msg →
      msg.visibilityTimeout.getD 0 < now)
    (hsweep : QueueNode.step config s (.requeue now) = some s₁)
    (h' : Run (QueueNode.step config) (FreshIds config) s₁ s')
    (hcount : (deliveries name s₁).length + (queueOf s₁.node.queues name).length ≤
      (deliveries name s').length) :
    ∃ later, deliveries name s' = deliveries name s₁ ++ later ∧ id ∈ later := by
  have hC := conserved_run hids h
  have hok : FreshIds config s (.requeue now) := trivial
  have hC₁ := hC.step hok (moves_of_step hsweep)
  obtain ⟨later, hlater⟩ := deliveries_isPrefix h' name
  refine ⟨later, hlater.symm, mem_deliveries_of_line (line_isPrefix hC₁ h' name) hlater.symm ?_ ?_⟩
  · rw [← hlater, List.length_append] at hcount
    omega
  · -- after the sweep the message is in its deque
    cases moves_of_step hsweep with
    | refuse hrequest => cases hrequest
    | requeue hrecovery =>
        have hplace := hC₁.waits_or_inFlight (s := { s with node := requeueExpired now s.node })
          hentered hid
        rcases hplace with ⟨m, hm, rfl⟩ | ⟨m, hm⟩
        · exact List.mem_map_of_mem hm
        · exact absurd (hover m (inFlight_requeueExpired hm))
            (not_expired_requeueExpired hC.keyed hm)

end Delivery

/-- The first message is taken by a consumer that dies. -/
def takenByDead : List (Action ℕ) :=
  [.publish "jobs" (some 7) 1 0, .publish "jobs" (some 8) 2 0, .walWrite, .walDone, .walWrite,
    .walDone, .consume "jobs" 1]

/-- Another publish, and two consumes by somebody else. -/
def takenByOther : List (Action ℕ) :=
  [.publish "jobs" (some 9) 3 41, .consume "jobs" 42, .walWrite, .walDone, .consume "jobs" 43]

/-- A sweep puts the message behind the second one, and it is delivered after that. -/
theorem atLeastOnce_takenByOther :
    ∃ s s₁ s' : Service ℕ, Run (QueueNode.step worker) (FreshIds worker) (opened []) s ∧
      deliveries "jobs" s = ["worker-1"] ∧ QueueNode.step worker s (.requeue 40) = some s₁ ∧
      Run (QueueNode.step worker) (FreshIds worker) s₁ s' ∧
      ∃ later, deliveries "jobs" s' = deliveries "jobs" s₁ ++ later ∧ "worker-1" ∈ later := by
  obtain ⟨s, hs, hentered, haccepted, hdelivered, hover, hmore⟩ := Run.exists_of_exec
    (QueueNode.step worker) (FreshIds worker) (opened []) takenByDead (fun s =>
      ("jobs", "worker-1") ∈ entered [] s ∧ s.accepted = [] ∧ deliveries "jobs" s = ["worker-1"] ∧
      (((inFlight s.node.processing "jobs").get? "worker-1").all fun msg =>
        decide (msg.visibilityTimeout.getD 0 < 40)) = true ∧
      ((QueueNode.step worker s (.requeue 40)).any fun s₁ =>
        (exec (QueueNode.step worker) (FreshIds worker) s₁ takenByOther).any fun s' =>
          decide ((deliveries "jobs" s₁).length + (queueOf s₁.node.queues "jobs").length ≤
            (deliveries "jobs" s').length)) = true) (by decide +kernel)
  obtain ⟨s₁, hsweep, hexec⟩ := (Option.any_eq_true _ _).1 hmore
  obtain ⟨s', hs', hcount⟩ := (Option.any_eq_true _ _).1 hexec
  have hids : ((enqueued ([] : List (WalEntry ℕ))).map Message.id).Nodup := List.nodup_nil
  have hrun := Run.of_exec takenByOther hs'
  refine ⟨s, s₁, s', hs, hdelivered, hsweep, hrun, ?_⟩
  refine atLeastOnce hids hs hentered (by rw [haccepted]; exact List.not_mem_nil)
    (fun msg hmsg => ?_) hsweep hrun (of_decide_eq_true hcount)
  rw [hmsg] at hover
  exact of_decide_eq_true hover

end QueueNode
