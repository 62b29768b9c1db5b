/-
**Recovery of a queue from its log.**

`_recover_from_wal` collects the messages of the `ENQUEUE` lines, and those without an `ACK` line go
back to their queues.  With distinct ids these are the messages of `QueueNode.unacked`, in the order
of the log.  A reader that works line by line while the log grows has collected what the lines
before its position say, `QueueNode.Recovery.Reads`.

In orderly runs, with any number of crashes, nothing else happens while the log is read, and the
recovery is exact.

Main definitions:

* `QueueNode.unacked` — **the messages of a queue with an `ENQUEUE` line and no `ACK` line**;
* `QueueNode.Recovery.Reads` — what the reader has collected;
* `QueueNode.RecoveryInv` — the memory while the log is read.

Main results:

* `QueueNode.queueOf_fillQueues` — the fill;
* `QueueNode.recovery_exact` — **what the queues hold after a recovery**.
-/

import DistSync.QueueLog

set_option relaxedAutoImplicit false
set_option autoImplicit false

namespace QueueNode

open Runs

variable {δ : Type*}

/-! ### What the log says about the queues -/

/-- **The messages of a queue with an `ENQUEUE` line and no `ACK` line**, in the order of the
log. -/
def unacked (wal : List (WalEntry δ)) (name : String) : List (Message δ) :=
  (enqueued wal).filter fun m => m.queue = name ∧ m.id ∉ acked wal

theorem mem_unacked {wal : List (WalEntry δ)} {name : String} {m : Message δ} :
    m ∈ unacked wal name ↔ m ∈ enqueued wal ∧ m.queue = name ∧ m.id ∉ acked wal := by
  simp [unacked]

/-! ### Reading -/

/-- The local variables of `_recover_from_wal` after the given lines. -/
def readLines (lines : List (WalEntry δ)) : Recovery δ :=
  lines.foldl Recovery.readLine ∅

@[simp] theorem readLines_nil : readLines ([] : List (WalEntry δ)) = ∅ := rfl

@[simp] theorem readLines_snoc (lines : List (WalEntry δ)) (entry : WalEntry δ) :
    readLines (lines ++ [entry]) = (readLines lines).readLine entry := by
  simp [readLines]

theorem mem_readLines_ackedIds (lines : List (WalEntry δ)) (id : String) :
    id ∈ (readLines lines).ackedIds ↔ id ∈ acked lines := by
  induction lines using List.reverseRecOn with
  | nil =>
      show id ∈ (∅ : Finset String) ↔ _
      simp
  | append_singleton lines entry ih =>
      rw [readLines_snoc]
      cases entry with
      | enqueue m => simpa [Recovery.readLine] using ih
      | ack id' =>
          simp only [Recovery.readLine, Finset.mem_insert, ih, acked_snoc_ack, List.mem_append,
            List.mem_singleton]
          exact or_comm

theorem inFlight_set {d : Dict String (Dict String (Message δ))} {name name' : String}
    {messages : Dict String (Message δ)} :
    inFlight (d.set name messages) name' = if name' = name then messages else inFlight d name' := by
  simp only [inFlight, Dict.get?_set]
  split <;> rfl

/-- With distinct ids, the temporary queue of a name holds all its messages in the order of the
lines. -/
theorem inFlight_readLines (lines : List (WalEntry δ))
    (hnodup : ((enqueued lines).map Message.id).Nodup) (name : String) :
    (inFlight (readLines lines).tempQueues name).entries =
      ((enqueued lines).filter fun m => m.queue = name).map fun m => (m.id, m) := by
  induction lines using List.reverseRecOn with
  | nil => rfl
  | append_singleton lines entry ih =>
      rw [readLines_snoc]
      cases entry with
      | ack id =>
          rw [enqueued_snoc_ack] at hnodup ⊢
          exact ih hnodup
      | enqueue m =>
          rw [enqueued_snoc_enqueue, List.map_append, List.nodup_append] at hnodup
          obtain ⟨hlines, -, hnew⟩ := hnodup
          rw [enqueued_snoc_enqueue, List.filter_append, List.map_append, ← ih hlines]
          simp only [Recovery.readLine, inFlight_set]
          by_cases hname : name = m.queue
          · subst hname
            have hfresh : (inFlight (readLines lines).tempQueues m.queue).get? m.id = none := by
              rw [Dict.get?_eq_none_iff, Dict.keys, ih hlines]
              simp only [List.map_map, List.mem_map, Function.comp, List.mem_filter]
              rintro ⟨m', ⟨hmem, -⟩, hid⟩
              exact hnew m'.id (List.mem_map_of_mem hmem) m.id (by simp) hid
            rw [if_pos rfl, Dict.entries_set_of_new hfresh]
            simp
          · rw [if_neg hname]
            simp [Ne.symm hname]

/-! ### Filling -/

theorem queueOf_fillQueue (ackedIds : Finset String) (name name' : String)
    (queues : Dict String (List (Message δ))) (messages : List (String × Message δ)) :
    queueOf (fillQueue ackedIds name queues messages) name' =
      if name' = name then
        queueOf queues name ++ (messages.filter fun e => e.1 ∉ ackedIds).map Prod.snd
      else queueOf queues name' := by
  induction messages generalizing queues with
  | nil =>
      simp only [fillQueue, List.foldl_nil, List.filter_nil, List.map_nil, List.append_nil]
      split
      · next h => rw [h]
      · rfl
  | cons e messages ih =>
      obtain ⟨id, m⟩ := e
      simp only [fillQueue, List.foldl_cons] at ih ⊢
      rw [ih]
      by_cases hid : id ∈ ackedIds
      · simp [hid]
      · simp only [if_neg hid, queueOf_pushBack]
        split
        · next h => simp [hid]
        · rfl

theorem queueOf_foldl_fillQueue (ackedIds : Finset String)
    {temp : List (String × Dict String (Message δ))} (htemp : (temp.map Prod.fst).Nodup)
    (queues : Dict String (List (Message δ))) (name : String) :
    queueOf (temp.foldl (fun queues e => fillQueue ackedIds e.1 queues e.2.entries) queues) name =
      queueOf queues name ++ ((((Dict.lookupEntry name temp).getD ∅).entries).filter
        fun e => e.1 ∉ ackedIds).map Prod.snd := by
  induction temp generalizing queues with
  | nil => simp [Dict.lookupEntry]
  | cons e temp ih =>
      obtain ⟨name', messages⟩ := e
      rw [List.map_cons, List.nodup_cons] at htemp
      rw [List.foldl_cons, ih htemp.2, queueOf_fillQueue, Dict.lookupEntry]
      by_cases h : name = name'
      · subst h
        rw [if_pos rfl, if_pos rfl, Dict.lookupEntry_eq_none_of_notMem htemp.1]
        simp
      · rw [if_neg h, if_neg (Ne.symm h)]

/-- **The fill** adds to every queue what was read for it and not acknowledged. -/
theorem queueOf_fillQueues (r : Recovery δ) (queues : Dict String (List (Message δ)))
    (name : String) :
    queueOf (fillQueues r queues) name = queueOf queues name ++
      ((inFlight r.tempQueues name).entries.filter fun e => e.1 ∉ r.ackedIds).map Prod.snd :=
  queueOf_foldl_fillQueue r.ackedIds r.tempQueues.nodup queues name

/-- With distinct ids, the fill adds the messages that the lines read do not acknowledge. -/
theorem queueOf_fillQueues_readLines (lines : List (WalEntry δ))
    (hnodup : ((enqueued lines).map Message.id).Nodup) (queues : Dict String (List (Message δ)))
    (name : String) :
    queueOf (fillQueues (readLines lines) queues) name =
      queueOf queues name ++ unacked lines name := by
  rw [queueOf_fillQueues, inFlight_readLines lines hnodup, List.filter_map, List.map_map]
  have hsnd : (Prod.snd ∘ fun m : Message δ => (m.id, m)) = id := rfl
  rw [hsnd, List.map_id, List.filter_filter]
  congr 1
  refine List.filter_congr fun m _ => ?_
  simp [mem_readLines_ackedIds, Bool.and_comm]

/-- A recovery that was not disturbed restores the messages that the log says are not
acknowledged. -/
theorem queueOf_recovered (wal : List (WalEntry δ)) (hnodup : ((enqueued wal).map Message.id).Nodup)
    (name : String) : queueOf (fillQueues (readLines wal) ∅) name = unacked wal name := by
  rw [queueOf_fillQueues_readLines wal hnodup]
  exact List.nil_append _

/-! ### The reader -/

theorem readLine_position (r : Recovery δ) (entry : WalEntry δ) :
    (r.readLine entry).position = r.position + 1 := by
  cases entry <;> rfl

@[simp] theorem readLines_position (lines : List (WalEntry δ)) :
    (readLines lines).position = lines.length := by
  induction lines using List.reverseRecOn with
  | nil => rfl
  | append_singleton lines entry ih =>
      rw [readLines_snoc, readLine_position, ih, List.length_append, List.length_singleton]

/-- The local variables hold what the lines before the position say. -/
def Recovery.Reads (r : Recovery δ) (wal : List (WalEntry δ)) : Prop :=
  { r with atEnd := false } = readLines (wal.take r.position)

namespace Recovery.Reads

variable {r : Recovery δ} {wal : List (WalEntry δ)}

theorem empty : Recovery.Reads (∅ : Recovery δ) wal := rfl

theorem position_le (h : r.Reads wal) : r.position ≤ wal.length := by
  have hposition := congrArg Recovery.position h
  rw [readLines_position, List.length_take] at hposition
  exact hposition.le.trans (min_le_right _ _)

/-- New lines do not change what has been read. -/
theorem append (h : r.Reads wal) (lines : List (WalEntry δ)) : r.Reads (wal ++ lines) := by
  rw [Recovery.Reads, List.take_append_of_le_length h.position_le]
  exact h

theorem readLine (h : r.Reads wal) {entry : WalEntry δ} (hentry : wal[r.position]? = some entry)
    (hatEnd : r.atEnd = false) : (r.readLine entry).Reads wal := by
  have hr : r = readLines (wal.take r.position) := by
    rw [← h, ← hatEnd]
  have hline : { r.readLine entry with atEnd := false } = r.readLine entry := by
    cases entry <;> rw [Recovery.readLine, hatEnd]
  rw [Recovery.Reads, hline, readLine_position, List.take_add_one, hentry, Option.toList_some,
    readLines_snoc, ← hr]

/-- The fill does not depend on how the end of the file was found. -/
theorem fillQueues_eq (h : r.Reads wal) (queues : Dict String (List (Message δ))) :
    fillQueues r queues = fillQueues (readLines (wal.take r.position)) queues := by
  rw [← h]
  rfl

end Recovery.Reads

/-- The log only grows. -/
theorem Moves.wal {config : Config} {s s' : Service δ} {a : Action δ} (h : Moves config s a s') :
    s.node.wal <+: s'.node.wal := by
  cases h with
  | empty hempty => exact ((localDequeue_frame config s.node _ _).2.2.2.symm ▸ List.prefix_rfl)
  | consume hqueue => exact ((localDequeue_frame config s.node _ _).2.2.2.symm ▸ List.prefix_rfl)
  | requeue hrecovery => exact ((requeueExpired_frame s.node _).2.2.2.symm ▸ List.prefix_rfl)
  | walWrite hwriters happended => exact List.prefix_append _ _
  | @walDone w rest hwriters happended =>
      have hwal := (complete_frame { s.node with writers := rest, appended := false } w).2.2.2
      exact (hwal.symm ▸ List.prefix_rfl)
  | _ => exact List.prefix_rfl

/-- While the log is read, there is nothing else in memory, and the log does not grow. -/
def RecoveryInv (s : Service δ) : Prop :=
  ∀ r ∈ s.node.recovery, r.Reads s.node.wal ∧ (r.atEnd = true → r.position = s.node.wal.length) ∧
    s.node.queues = ∅ ∧ s.node.processing = ∅ ∧ s.node.writers = []

theorem RecoveryInv.step {config : Config} {s s' : Service δ} {a : Action δ} (h : RecoveryInv s)
    (hok : Orderly config s a) (hmove : Moves config s a s') : RecoveryInv s' := by
  -- a step that is not taken during the recovery, and does not start one
  have hnone : s.node.recovery.isNone = true → s'.node.recovery = s.node.recovery →
      RecoveryInv s' := by
    intro hserving hsame r hr
    rw [hsame, Option.isNone_iff_eq_none.1 hserving] at hr
    cases hr
  -- a handler is running, so there is no recovery
  have hwriting : s.node.writers ≠ [] → s.node.recovery.isNone = true := by
    intro hwriters
    cases hr : s.node.recovery with
    | none => rfl
    | some r => exact absurd (h r hr).2.2.2.2 hwriters
  cases hmove with
  | refuse hrequest error status => exact h
  | publish hname => exact hnone hok.1 rfl
  | empty hempty => exact hnone hok (localDequeue_frame config s.node _ _).2.2.1
  | consume hqueue => exact hnone hok (localDequeue_frame config s.node _ _).2.2.1
  | ack hfound => exact hnone hok rfl
  | notFound hfound => exact hnone hok rfl
  | requeue hrecovery =>
      exact hnone (Option.isNone_iff_eq_none.2 hrecovery) (requeueExpired_frame s.node _).2.2.1
  | walWrite hwriters happended =>
      exact hnone (hwriting (by rw [hwriters]; exact List.cons_ne_nil _ _)) rfl
  | walFail hwriters happended => exact hok.elim
  | @walDone w rest hwriters happended =>
      exact hnone (hwriting (by rw [hwriters]; exact List.cons_ne_nil _ _))
        (complete_frame { s.node with writers := rest, appended := false } w).2.2.1
  | crash =>
      intro r hr
      cases hr
      exact ⟨.empty, nofun, rfl, rfl, rfl⟩
  | @recoverLine r entry hrecovery hentry hatEnd =>
      intro r' hr'
      cases hr'
      obtain ⟨hread, -, hmemory⟩ := h r hrecovery
      refine ⟨hread.readLine hentry hatEnd, fun hend => ?_, hmemory⟩
      cases entry <;> exact absurd (hatEnd.symm.trans hend) Bool.false_ne_true
  | @recoverEnd r hrecovery hposition =>
      intro r' hr'
      cases hr'
      obtain ⟨hread, -, hmemory⟩ := h r hrecovery
      exact ⟨hread, fun _ => hposition, hmemory⟩
  | recoverFill hrecovery hatEnd =>
      intro r' hr'
      cases hr'

theorem recoveryInv_run {config : Config} {s : Service δ}
    (h : Run (QueueNode.step config) (Orderly config) initial s) : RecoveryInv s := by
  refine Run.invariant (fun _ _ _ hinv hok hstep => hinv.step hok (moves_of_step hstep)) h ?_
  intro r hr
  cases hr
  exact ⟨.empty, nofun, rfl, rfl, rfl⟩

/-- **What the queues hold after a recovery.**  After any number of crashes the queues hold the
messages with an `ENQUEUE` line and no `ACK` line, in the order of the log; no id occurs twice.  So
a message whose publish was answered is there unless an ack found it in flight, and a message whose
ack was answered is not. -/
theorem recovery_exact {config : Config} {s s' : Service δ}
    (h : Run (QueueNode.step config) (Orderly config) initial s)
    (hfill : QueueNode.step config s .recoverFill = some s') :
    (∀ name, queueOf s'.node.queues name = unacked s'.node.wal name) ∧
    (∀ name, ((queueOf s'.node.queues name).map Message.id).Nodup) ∧
    (∀ name name', ∀ m ∈ queueOf s'.node.queues name, ∀ m' ∈ queueOf s'.node.queues name',
      m.id = m'.id → name = name') ∧
    s'.node.processing = ∅ ∧
    (∀ name data id, (Request.publish name data, Response.enqueued id) ∈ s'.answers →
      id ∉ s'.accepted → ∃ m ∈ queueOf s'.node.queues name, m.id = id ∧ some m.data = data) ∧
    (∀ name id, (Request.ack name id, Response.acked) ∈ s'.answers →
      ∀ name', ∀ m ∈ queueOf s'.node.queues name', m.id ≠ id) := by
  have hwal := walInv_run h
  have hids : ((enqueued s.node.wal).map Message.id).Nodup :=
    hwal.nodup.sublist ((List.sublist_append_left _ _).map _)
  cases moves_of_step hfill with
  | refuse hrequest error status => cases hrequest
  | @recoverFill r hrecovery hatEnd =>
      obtain ⟨hread, hend, hqueues, hprocessing, -⟩ := recoveryInv_run h r hrecovery
      have hqueue : ∀ name,
          queueOf (fillQueues r s.node.queues) name = unacked s.node.wal name := by
        intro name
        rw [hread.fillQueues_eq, hqueues, hend hatEnd, List.take_length]
        exact queueOf_recovered s.node.wal hids name
      refine ⟨hqueue, fun name => ?_, fun name name' m hm m' hm' hid => ?_, hprocessing,
        fun name data id hmem hid => ?_, fun name id hmem name' m hm hid => ?_⟩
      · rw [hqueue]
        exact hids.sublist (List.filter_sublist.map _)
      · rw [hqueue, mem_unacked] at hm hm'
        -- both messages are logged, and logged ids are distinct
        have heq : m = m' := List.inj_on_of_nodup_map hids hm.1 hm'.1 hid
        rw [← hm.2.1, ← hm'.2.1, heq]
      · obtain ⟨m, hm, rfl, hname, hdata⟩ := hwal.published name data id hmem
        refine ⟨m, ?_, rfl, hdata⟩
        rw [hqueue, mem_unacked]
        exact ⟨hm, hname, fun hack => hid (hwal.accepted _ hack)⟩
      · rw [hqueue, mem_unacked] at hm
        exact hm.2.2 (hid ▸ hwal.answered name id hmem)

/-- The settings of a node for the run below. -/
def worker : Config := ⟨"worker", 30⟩

/-- Two messages are published, and the first is taken and acknowledged.  The node crashes when the
line of the ack is written but not answered, and reads its log of three lines. -/
def crashedAck : List (Action ℕ) :=
  [.recoverEnd, .recoverFill, .publish "jobs" (some 7) 1 0, .walWrite, .walDone,
    .publish "jobs" (some 8) 2 0, .walWrite, .consume "jobs" 1, .ack "jobs" "worker-1", .walDone,
    .walWrite, .crash, .recoverLine, .recoverLine, .recoverLine, .recoverEnd]

/-- The recovery after that crash finds the second message. -/
theorem recovery_exact_crashedAck :
    ∃ s s' : Service ℕ, Run (QueueNode.step worker) (Orderly worker) initial s ∧
      QueueNode.step worker s .recoverFill = some s' ∧
      (unacked s.node.wal "jobs").map Message.id = ["worker-2"] ∧
      ∀ name, queueOf s'.node.queues name = unacked s'.node.wal name := by
  obtain ⟨s, hs, hfill, hids⟩ := Run.exists_of_exec (QueueNode.step worker) (Orderly worker) initial
    crashedAck (fun s => (QueueNode.step worker s .recoverFill).isSome = true ∧
      (unacked s.node.wal "jobs").map Message.id = ["worker-2"]) (by decide)
  obtain ⟨s', hs'⟩ := Option.isSome_iff_exists.1 hfill
  exact ⟨s, s', hs, hs', hids, (recovery_exact hs hs').1⟩

end QueueNode
