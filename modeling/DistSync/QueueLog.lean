/-
**The log of a queue node.**

A publish writes its line before the message is in the queue, an ack takes the message away before
it writes its line, and messages move between the queue and `processing` without a line.  So the
memory and the log of a running node agree at almost no time.  What survives is the log, and a
message belongs to it from the moment of its `ENQUEUE` line to the moment of its `ACK` line.

This module is about runs with any number of crashes: what the log says about messages and acks in
any run, `QueueNode.LogInv`; which answers are backed by a line, `QueueNode.AnswersLogged`; and both
of them when the appends succeed, `QueueNode.WalInv`.

Main definitions:

* `QueueNode.enqueued`, `QueueNode.acked` — the messages and the acks of a log;
* `QueueNode.LogInv` — **the log in any run**;
* `QueueNode.AnswersLogged` — the answers that are backed by a line;
* `QueueNode.WalInv` — what the log says about the clients;
* `QueueNode.Orderly` — fresh ids, successful appends, no request during the recovery.

Main results:

* `QueueNode.Moves.loggedMessages` — what a step does to the logged messages;
* `QueueNode.walInv_run` — **the log in orderly runs**.
-/

import DistSync.QueueNode

set_option relaxedAutoImplicit false
set_option autoImplicit false

namespace QueueNode

open Runs

variable {δ : Type*}

/-! ### The log -/

/-- The messages with an `ENQUEUE` line, in the order of the log. -/
def enqueued (wal : List (WalEntry δ)) : List (Message δ) := wal.filterMap WalEntry.payload?

/-- The ids with an `ACK` line. -/
def acked (wal : List (WalEntry δ)) : List String := wal.filterMap WalEntry.msgId?

@[simp] theorem enqueued_nil : enqueued ([] : List (WalEntry δ)) = [] := rfl

@[simp] theorem acked_nil : acked ([] : List (WalEntry δ)) = [] := rfl

@[simp] theorem enqueued_snoc_enqueue (wal : List (WalEntry δ)) (m : Message δ) :
    enqueued (wal ++ [.enqueue m]) = enqueued wal ++ [m] := by
  simp [enqueued, WalEntry.payload?]

@[simp] theorem enqueued_snoc_ack (wal : List (WalEntry δ)) (id : String) :
    enqueued (wal ++ [.ack id]) = enqueued wal := by
  simp [enqueued, WalEntry.payload?]

@[simp] theorem acked_snoc_enqueue (wal : List (WalEntry δ)) (m : Message δ) :
    acked (wal ++ [.enqueue m]) = acked wal := by
  simp [acked, WalEntry.msgId?]

@[simp] theorem acked_snoc_ack (wal : List (WalEntry δ)) (id : String) :
    acked (wal ++ [.ack id]) = acked wal ++ [id] := by
  simp [acked, WalEntry.msgId?]

/-! ### Runs -/

/-- The steps that the recovery is specified for: no request is served while the log is read, every
message gets a fresh id, and no append fails. -/
def Orderly (config : Config) (s : Service δ) : Action δ → Prop
  | .publish _ _ timeNs _ =>
      s.node.recovery.isNone = true ∧ messageId config timeNs ∉ s.minted
  | .consume _ _ | .ack _ _ => s.node.recovery.isNone = true
  | .walFail => False
  | _ => True

instance (config : Config) (s : Service δ) : DecidablePred (Orderly config s)
  | .publish _ _ _ _ => inferInstanceAs (Decidable (_ ∧ _))
  | .consume _ _ | .ack _ _ => inferInstanceAs (Decidable (_ = _))
  | .walFail => .isFalse id
  | .requeue _ | .walWrite | .walDone | .crash => .isTrue trivial
  | .recoverLine | .recoverEnd | .recoverFill => .isTrue trivial

/-- Every message gets a fresh id, and no append fails. -/
def Logged (config : Config) (s : Service δ) : Action δ → Prop
  | .publish _ _ timeNs _ => messageId config timeNs ∉ s.minted
  | .walFail => False
  | _ => True

theorem Orderly.logged {config : Config} {s : Service δ} {a : Action δ}
    (h : Orderly config s a) : Logged config s a := by
  cases a with
  | publish queueName message timeNs time => exact h.2
  | walFail => exact h
  | _ => trivial

/-- The handlers whose line is not in the log yet. -/
def unwritten (node : DistributedQueueNode δ) : List (Writer δ) :=
  if node.appended = true then node.writers.tail else node.writers

/-- The message of a publish. -/
def Writer.message? : Writer δ → Option (Message δ)
  | .publish msgData => some msgData
  | .ack _ _ => none

/-- What the log says about the clients. -/
structure WalInv (s : Service δ) : Prop where
  /-- ids of logged messages, and of those about to be logged -/
  nodup : ((enqueued s.node.wal ++ (unwritten s.node).filterMap Writer.message?).map
    Message.id).Nodup
  minted : ∀ m ∈ enqueued s.node.wal ++ (unwritten s.node).filterMap Writer.message?,
    m.id ∈ s.minted
  accepted : ∀ id ∈ acked s.node.wal, id ∈ s.accepted
  writers : ∀ name id, Writer.ack name id ∈ s.node.writers → id ∈ s.accepted
  /-- the line of a handler whose append is over -/
  written : s.node.appended = true → ∃ w rest, s.node.writers = w :: rest ∧ w.entry ∈ s.node.wal
  published : ∀ name data id, (Request.publish name data, Response.enqueued id) ∈ s.answers →
    ∃ m ∈ enqueued s.node.wal, m.id = id ∧ m.queue = name ∧ some m.data = data
  answered : ∀ name id, (Request.ack name id, Response.acked) ∈ s.answers → id ∈ acked s.node.wal

theorem mem_enqueued {wal : List (WalEntry δ)} {m : Message δ} :
    m ∈ enqueued wal ↔ .enqueue m ∈ wal := by
  unfold enqueued
  rw [List.mem_filterMap]
  constructor
  · rintro ⟨entry, hmem, hentry⟩
    cases entry with
    | enqueue m' =>
        cases hentry
        exact hmem
    | ack id => cases hentry
  · intro hmem
    exact ⟨_, hmem, rfl⟩

theorem mem_acked {wal : List (WalEntry δ)} {id : String} : id ∈ acked wal ↔ .ack id ∈ wal := by
  unfold acked
  rw [List.mem_filterMap]
  constructor
  · rintro ⟨entry, hmem, hentry⟩
    cases entry with
    | enqueue m => cases hentry
    | ack id' =>
        cases hentry
        exact hmem
  · intro hmem
    exact ⟨_, hmem, rfl⟩

/-! ### The messages of the log -/

/-- The messages that are logged, or about to be. -/
def loggedMessages (node : DistributedQueueNode δ) : List (Message δ) :=
  enqueued node.wal ++ (unwritten node).filterMap Writer.message?

theorem unwritten_append {node node' : DistributedQueueNode δ} {w : Writer δ}
    (hwriters : node'.writers = node.writers ++ [w]) (happended : node'.appended = node.appended)
    (hwritten : node.appended = true → node.writers ≠ []) :
    unwritten node' = unwritten node ++ [w] := by
  unfold unwritten
  rw [hwriters, happended]
  split
  · next h => exact List.tail_append_of_ne_nil (hwritten h)
  · rfl

/-- Writing the line of the first handler moves its message from the one list to the other. -/
theorem enqueued_write (wal : List (WalEntry δ)) (w : Writer δ) (rest : List (Writer δ)) :
    enqueued (wal ++ [w.entry]) ++ rest.filterMap Writer.message? =
      enqueued wal ++ (w :: rest).filterMap Writer.message? := by
  cases w <;> simp [Writer.entry, Writer.message?, List.filterMap_cons]

theorem loggedMessages_frame {node node' : DistributedQueueNode δ}
    (hwriters : node'.writers = node.writers) (happended : node'.appended = node.appended)
    (hwal : node'.wal = node.wal) :
    (loggedMessages node').Sublist (loggedMessages node) := by
  rw [loggedMessages, loggedMessages, unwritten, unwritten, hwriters, happended, hwal]

/-- A handler that joins the others brings its message, if it has one. -/
theorem loggedMessages_join {node node' : DistributedQueueNode δ} {w : Writer δ}
    (hbusy : node.appended = true → node.writers ≠ [])
    (hwriters : node'.writers = node.writers ++ [w]) (happended : node'.appended = node.appended)
    (hwal : node'.wal = node.wal) :
    (loggedMessages node').Sublist (loggedMessages node ++ w.message?.toList) := by
  have hmessages : [w].filterMap Writer.message? = w.message?.toList := by
    cases w <;> rfl
  rw [loggedMessages, loggedMessages, unwritten_append hwriters happended hbusy, hwal,
    List.filterMap_append, hmessages, List.append_assoc]

/-- **What a step does to the logged messages.**  At most it adds one, with an id that it gives
away. -/
theorem Moves.loggedMessages {config : Config} {s s' : Service δ} {a : Action δ}
    (h : Moves config s a s') (hbusy : s.node.appended = true → s.node.writers ≠ []) :
    ((loggedMessages s'.node).Sublist (loggedMessages s.node) ∧ s'.minted = s.minted) ∨
    ∃ m, (loggedMessages s'.node).Sublist (loggedMessages s.node ++ [m]) ∧
      s'.minted = s.minted ++ [m.id] := by
  cases h with
  | @publish queueName data timeNs time hname =>
      refine .inr ⟨⟨messageId config timeNs, queueName, data, time, none⟩, ?_, rfl⟩
      exact loggedMessages_join (w := .publish _) hbusy rfl rfl rfl
  | @ack queueName messageId hfound =>
      refine .inl ⟨(List.append_nil (QueueNode.loggedMessages s.node)) ▸ ?_, rfl⟩
      exact loggedMessages_join (w := .ack queueName messageId) hbusy rfl rfl rfl
  | empty hempty =>
      obtain ⟨hw, ha, -, hl⟩ := localDequeue_frame config s.node _ _
      exact .inl ⟨loggedMessages_frame hw ha hl, rfl⟩
  | consume hqueue =>
      obtain ⟨hw, ha, -, hl⟩ := localDequeue_frame config s.node _ _
      exact .inl ⟨loggedMessages_frame hw ha hl, rfl⟩
  | requeue hrecovery =>
      obtain ⟨hw, ha, -, hl⟩ := requeueExpired_frame s.node _
      exact .inl ⟨loggedMessages_frame hw ha hl, rfl⟩
  | @walWrite w rest hwriters happended =>
      refine .inl ⟨?_, rfl⟩
      simp only [QueueNode.loggedMessages, unwritten, hwriters, happended, if_pos, List.tail_cons,
        Bool.false_eq_true, if_false, enqueued_write]
      exact List.Sublist.refl _
  | @walFail w rest hwriters happended =>
      refine .inl ⟨?_, rfl⟩
      simp only [QueueNode.loggedMessages, unwritten, hwriters, happended, if_pos, List.tail_cons,
        Bool.false_eq_true, if_false]
      exact ((List.sublist_cons_self _ _).filterMap _).append_left _
  | @walDone w rest hwriters happended =>
      obtain ⟨hw, ha, -, hl⟩ := complete_frame { s.node with writers := rest, appended := false } w
      refine .inl ⟨?_, rfl⟩
      simp only [QueueNode.loggedMessages, unwritten, Service.answer, hw, ha, hl, hwriters,
        happended, if_pos, List.tail_cons, Bool.false_eq_true, if_false]
      exact List.Sublist.refl _
  | crash =>
      refine .inl ⟨?_, rfl⟩
      simp [QueueNode.loggedMessages, unwritten, start]
  | _ => exact .inl ⟨List.Sublist.refl _, rfl⟩

/-! ### The acks of the log -/

/-- The acks that are logged, or about to be, have been accepted; and a handler has the lock as long
as its append is over. -/
structure AcksAccepted (s : Service δ) : Prop where
  busy : s.node.appended = true → s.node.writers ≠ []
  accepted : ∀ id ∈ acked s.node.wal, id ∈ s.accepted
  writers : ∀ name id, Writer.ack name id ∈ s.node.writers → id ∈ s.accepted

namespace AcksAccepted

variable {s s' : Service δ} {config : Config} {a : Action δ}

theorem of_frame (h : AcksAccepted s) (hwriters : s'.node.writers = s.node.writers)
    (happended : s'.node.appended = s.node.appended) (hwal : s'.node.wal = s.node.wal)
    (haccepted : s'.accepted = s.accepted) : AcksAccepted s' := by
  constructor
  · rw [happended, hwriters]
    exact h.busy
  · rw [hwal, haccepted]
    exact h.accepted
  · rw [hwriters, haccepted]
    exact h.writers

theorem join (h : AcksAccepted s) {w : Writer δ}
    (hwriters : s'.node.writers = s.node.writers ++ [w]) (hwal : s'.node.wal = s.node.wal)
    (haccepted : ∀ id ∈ s.accepted, id ∈ s'.accepted)
    (hack : ∀ name id, w = .ack name id → id ∈ s'.accepted) : AcksAccepted s' := by
  constructor
  · rw [hwriters]
    exact fun _ => List.append_ne_nil_of_right_ne_nil _ (List.cons_ne_nil _ _)
  · rw [hwal]
    exact fun id hid => haccepted id (h.accepted id hid)
  · rw [hwriters]
    intro name id hmem
    rcases List.mem_append.1 hmem with hmem | hmem
    · exact haccepted id (h.writers name id hmem)
    · exact hack name id (List.mem_singleton.1 hmem).symm

theorem walWrite (h : AcksAccepted s) {w : Writer δ} {rest : List (Writer δ)}
    (hwriters : s.node.writers = w :: rest) :
    AcksAccepted
      { s with node := { s.node with wal := s.node.wal ++ [w.entry], appended := true } } := by
  refine ⟨fun _ => by rw [hwriters]; exact List.cons_ne_nil _ _, fun id hid => ?_, h.writers⟩
  rcases List.mem_append.1 (mem_acked.1 hid) with hid | hid
  · exact h.accepted id (mem_acked.2 hid)
  · cases w with
    | publish m => cases List.mem_singleton.1 hid
    | ack name id' =>
        cases List.mem_singleton.1 hid
        exact h.writers name id (hwriters ▸ List.mem_cons_self)

theorem step (h : AcksAccepted s) (hmove : Moves config s a s') : AcksAccepted s' := by
  cases hmove with
  | publish hname => exact h.join rfl rfl (fun _ => id) nofun
  | ack hfound =>
      refine h.join rfl rfl (fun _ => List.mem_append_left _) ?_
      rintro name id ⟨⟩
      exact List.mem_append_right _ (List.mem_singleton_self _)
  | empty hempty =>
      obtain ⟨hw, ha, -, hl⟩ := localDequeue_frame config s.node _ _
      exact h.of_frame hw ha hl rfl
  | consume hqueue =>
      obtain ⟨hw, ha, -, hl⟩ := localDequeue_frame config s.node _ _
      exact h.of_frame hw ha hl rfl
  | requeue hrecovery =>
      obtain ⟨hw, ha, -, hl⟩ := requeueExpired_frame s.node _
      exact h.of_frame hw ha hl rfl
  | walWrite hwriters happended => exact h.walWrite hwriters
  | walFail hwriters happended =>
      exact ⟨fun _ => by rw [hwriters]; exact List.cons_ne_nil _ _, h.accepted, h.writers⟩
  | @walDone w rest hwriters happended =>
      have hrest : ∀ name id, Writer.ack name id ∈ rest → id ∈ s.accepted := fun name id hmem =>
        h.writers name id (hwriters ▸ List.mem_cons_of_mem _ hmem)
      cases w <;> exact ⟨nofun, h.accepted, hrest⟩
  | crash => exact ⟨nofun, h.accepted, nofun⟩
  | _ => exact h.of_frame rfl rfl rfl rfl

end AcksAccepted

/-- **The log in any run**, whatever fails and whenever the node crashes: its acks have been
accepted, and no id is logged more often than it has been given to a message. -/
structure LogInv (s : Service δ) : Prop where
  acks : AcksAccepted s
  minted : ∀ m ∈ loggedMessages s.node, m.id ∈ s.minted
  nodup : s.minted.Nodup → ((loggedMessages s.node).map Message.id).Nodup

theorem logInv_initial : LogInv (initial : Service δ) where
  acks := ⟨nofun, nofun, nofun⟩
  minted := nofun
  nodup := fun _ => List.nodup_nil

theorem LogInv.step {config : Config} {s s' : Service δ} {a : Action δ} (h : LogInv s)
    (hmove : Moves config s a s') : LogInv s' := by
  rcases hmove.loggedMessages h.acks.busy with ⟨hsub, hminted⟩ | ⟨m, hsub, hminted⟩
  · refine ⟨h.acks.step hmove, fun m' hm' => ?_, fun hnodup => ?_⟩
    · rw [hminted]
      exact h.minted m' (hsub.subset hm')
    · rw [hminted] at hnodup
      exact (h.nodup hnodup).sublist (hsub.map _)
  · refine ⟨h.acks.step hmove, fun m' hm' => ?_, fun hnodup => ?_⟩
    · rw [hminted]
      rcases List.mem_append.1 (hsub.subset hm') with hm' | hm'
      · exact List.mem_append_left _ (h.minted m' hm')
      · rw [List.mem_singleton.1 hm']
        exact List.mem_append_right _ (List.mem_singleton_self _)
    · rw [hminted, List.nodup_append] at hnodup
      obtain ⟨hold, -, hnew⟩ := hnodup
      refine List.Nodup.sublist (hsub.map _) ?_
      rw [List.map_append, List.nodup_append]
      refine ⟨h.nodup hold, List.nodup_singleton _, fun id hid id' hid' => ?_⟩
      obtain ⟨m', hm', rfl⟩ := List.mem_map.1 hid
      exact hnew _ (h.minted m' hm') id' hid'

theorem logInv_run {config : Config} {s : Service δ}
    {ok : Service δ → Action δ → Prop} (h : Run (step config) ok initial s) : LogInv s :=
  h.invariant (fun _ _ _ hI _ hstep => hI.step (moves_of_step hstep)) logInv_initial

/-! ### Answers -/

/-- The answers that accept a message or an ack. -/
def Response.accepts : Response δ → Prop
  | .enqueued _ | .acked => True
  | _ => False

/-- The lines of the handlers that `ok` selects are in the log when their appends are over, and
when they have answered. -/
structure AnswersLogged (ok : Writer δ → Prop) (s : Service δ) : Prop where
  written : s.node.appended = true → ∀ w rest, s.node.writers = w :: rest → ok w →
    w.entry ∈ s.node.wal
  answered : ∀ answer ∈ s.answers, answer.2.accepts →
    ∃ w : Writer δ, answer = (w.request, w.response) ∧ (ok w → w.entry ∈ s.node.wal)

namespace AnswersLogged

variable {ok : Writer δ → Prop} {s s' : Service δ} {config : Config} {a : Action δ}

theorem of_frame (h : AnswersLogged ok s) (hwriters : s'.node.writers = s.node.writers)
    (happended : s'.node.appended = s.node.appended) (hwal : s'.node.wal = s.node.wal)
    (hanswers : s'.answers = s.answers) : AnswersLogged ok s' := by
  constructor
  · rw [happended, hwriters, hwal]
    exact h.written
  · rw [hanswers, hwal]
    exact h.answered

/-- An answer that accepts nothing. -/
theorem answer (h : AnswersLogged ok s) {request : Request δ} {response : Response δ}
    (hresponse : ¬ response.accepts) : AnswersLogged ok (s.answer request response) := by
  refine ⟨h.written, fun answer hmem haccepts => ?_⟩
  rcases List.mem_append.1 hmem with hmem | hmem
  · exact h.answered answer hmem haccepts
  · rw [List.mem_singleton.1 hmem] at haccepts
    exact absurd haccepts hresponse

/-- A handler that joins is not the first one if an append is over. -/
theorem join (h : AnswersLogged ok s) (hbusy : s.node.appended = true → s.node.writers ≠ [])
    {w : Writer δ} (hwriters : s'.node.writers = s.node.writers ++ [w])
    (happended : s'.node.appended = s.node.appended) (hwal : s'.node.wal = s.node.wal)
    (hanswers : s'.answers = s.answers) : AnswersLogged ok s' := by
  constructor
  · rw [happended, hwriters, hwal]
    intro hdone w' rest hfirst
    obtain ⟨first, others, hcons⟩ := List.exists_cons_of_ne_nil (hbusy hdone)
    rw [hcons, List.cons_append, List.cons.injEq] at hfirst
    exact h.written hdone w' others (hfirst.1 ▸ hcons)
  · rw [hanswers, hwal]
    exact h.answered

theorem walWrite (h : AnswersLogged ok s) {w : Writer δ} {rest : List (Writer δ)}
    (hwriters : s.node.writers = w :: rest) :
    AnswersLogged ok
      { s with node := { s.node with wal := s.node.wal ++ [w.entry], appended := true } } := by
  constructor
  · intro _ w' rest' hfirst _
    obtain rfl := (List.cons.inj (hwriters.symm.trans hfirst)).1
    exact List.mem_append_right _ (List.mem_singleton_self _)
  · intro answer hmem haccepts
    obtain ⟨w', heq, hentry⟩ := h.answered answer hmem haccepts
    exact ⟨w', heq, fun hok => List.mem_append_left _ (hentry hok)⟩

/-- The first handler goes on and answers. -/
theorem walDone (h : AnswersLogged ok s) {w : Writer δ} {rest : List (Writer δ)}
    (hwriters : s.node.writers = w :: rest) (happended : s.node.appended = true) :
    AnswersLogged ok ({ s with
      node := w.complete { s.node with writers := rest, appended := false } }.answer
        w.request w.response) := by
  obtain ⟨-, ha, -, hl⟩ := complete_frame { s.node with writers := rest, appended := false } w
  constructor
  · intro hdone
    exact absurd (ha.symm.trans hdone) Bool.false_ne_true
  · intro answer hmem haccepts
    rcases List.mem_append.1 hmem with hmem | hmem
    · obtain ⟨w', heq, hentry⟩ := h.answered answer hmem haccepts
      exact ⟨w', heq, fun hok => hl.symm ▸ hentry hok⟩
    · exact ⟨w, List.mem_singleton.1 hmem,
        fun hok => hl.symm ▸ h.written happended w rest hwriters hok⟩

theorem step (h : AnswersLogged ok s) (hbusy : s.node.appended = true → s.node.writers ≠ [])
    (hfail : a = .walFail → ∀ w ∈ s.node.writers.head?, ¬ ok w) (hmove : Moves config s a s') :
    AnswersLogged ok s' := by
  cases hmove with
  | refuse hrequest error status => exact h.answer id
  | notFound hfound =>
      refine AnswersLogged.answer ?_ id
      exact h.of_frame rfl rfl rfl rfl
  | publish hname => exact h.join hbusy rfl rfl rfl rfl
  | ack hfound => exact h.join hbusy rfl rfl rfl rfl
  | empty hempty =>
      obtain ⟨hw, ha, -, hl⟩ := localDequeue_frame config s.node _ _
      refine AnswersLogged.answer ?_ id
      exact h.of_frame hw ha hl rfl
  | consume hqueue =>
      obtain ⟨hw, ha, -, hl⟩ := localDequeue_frame config s.node _ _
      refine AnswersLogged.answer ?_ id
      exact h.of_frame hw ha hl rfl
  | requeue hrecovery =>
      obtain ⟨hw, ha, -, hl⟩ := requeueExpired_frame s.node _
      exact h.of_frame hw ha hl rfl
  | walWrite hwriters happended => exact h.walWrite hwriters
  | walFail hwriters happended =>
      refine ⟨fun _ w' rest' hfirst hok => ?_, h.answered⟩
      have hfirst' : s.node.writers = w' :: rest' := hfirst
      exact absurd hok (hfail rfl w' (hfirst' ▸ rfl))
  | walDone hwriters happended => exact h.walDone hwriters happended
  | crash => exact ⟨fun h => (by cases h), h.answered⟩
  | _ => exact h.of_frame rfl rfl rfl rfl

/-- An answered publish, whose message is in the log. -/
theorem published (h : AnswersLogged ok s) (hok : ∀ m, ok (.publish m)) {name : String}
    {data : Option δ} {id : String}
    (hmem : (Request.publish name data, Response.enqueued id) ∈ s.answers) :
    ∃ m ∈ enqueued s.node.wal, m.id = id ∧ m.queue = name ∧ some m.data = data := by
  obtain ⟨w, heq, hentry⟩ := h.answered _ hmem trivial
  cases w with
  | publish m =>
      cases heq
      exact ⟨m, mem_enqueued.2 (hentry (hok m)), rfl, rfl, rfl⟩
  | ack queueName messageId => cases heq

end AnswersLogged

/-! ### The log in orderly runs -/

/-- Ids that have been given to messages are not forgotten. -/
theorem Moves.minted {config : Config} {s s' : Service δ} {a : Action δ} (h : Moves config s a s') :
    ∀ id ∈ s.minted, id ∈ s'.minted := by
  cases h with
  | publish hname => exact fun _ => List.mem_append_left _
  | _ => exact fun _ => id

/-- Fresh ids are distinct. -/
theorem Moves.minted_nodup {config : Config} {s s' : Service δ} {a : Action δ}
    (h : Moves config s a s') (hok : Logged config s a) (hnodup : s.minted.Nodup) :
    s'.minted.Nodup := by
  cases h with
  | publish hname =>
      refine hnodup.append (List.nodup_singleton _) fun id hid hnew => hok ?_
      rw [← List.mem_singleton.1 hnew]
      exact hid
  | _ => exact hnodup

/-- **The log in orderly runs.** -/
theorem walInv_run {config : Config} {s : Service δ}
    (h : Run (step config) (Orderly config) initial s) : WalInv s := by
  obtain ⟨hlog, hanswers, hnodup⟩ := h.invariant
    (I := fun s => LogInv s ∧ AnswersLogged (fun _ => True) s ∧ s.minted.Nodup)
    (fun s a s' hI hok hstep => by
      have hmove := moves_of_step hstep
      refine ⟨hI.1.step hmove, hI.2.1.step hI.1.acks.busy ?_ hmove,
        hmove.minted_nodup hok.logged hI.2.2⟩
      rintro rfl
      exact hok.elim)
    ⟨logInv_initial, ⟨fun h => (by cases h), fun _ h => (by cases h)⟩, List.nodup_nil⟩
  refine ⟨hlog.nodup hnodup, hlog.minted, hlog.acks.accepted, hlog.acks.writers, fun hdone => ?_,
    fun name data id hmem => hanswers.published (fun _ => trivial) hmem, fun name id hmem => ?_⟩
  · obtain ⟨w, rest, hw⟩ := List.exists_cons_of_ne_nil (hlog.acks.busy hdone)
    exact ⟨w, rest, hw, hanswers.written hdone w rest hw trivial⟩
  · obtain ⟨w, heq, hentry⟩ := hanswers.answered _ hmem trivial
    cases w with
    | publish m => cases heq
    | ack queueName messageId =>
        cases heq
        exact mem_acked.2 (hentry trivial)

end QueueNode
