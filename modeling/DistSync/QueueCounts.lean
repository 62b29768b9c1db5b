/-
**Counting messages.**

The id of a message is the only thing that `processing`, the temporary queues of the recovery and
its set of acknowledged ids tell messages apart by.  It is made from the clock, which may give the
same reading twice.  When every publish has a reading of its own, the numbers are right: what the
node holds is what was published less what was acknowledged, and the same messages come back after a
crash.

The lines of the log are the answers in another form: while no append fails, the `ENQUEUE` lines are
the answered publishes, and the one that is about to be answered; the `ACK` lines and those still to
be written are the accepted acks.

Main definitions:

* `QueueNode.stored` — the number of messages in queues and in flight;
* `QueueNode.OwnReading` — the steps of a node that does not crash, where every publish has a
  reading of its own;
* `QueueNode.Mirrors` — **the log and the answers agree**.

Main results:

* `QueueNode.recovering_run` — what a recovery leaves that nothing disturbs;
* `QueueNode.counts` — **the numbers are right, and a recovery keeps them**;
* `QueueNode.counts_fail` — two publishes with one reading.
-/

import DistSync.QueueConservation

set_option relaxedAutoImplicit false
set_option autoImplicit false

namespace QueueNode

open Runs

variable {δ : Type*}

/-! ### Numbers -/

/-- The number of messages in queues and in flight. -/
def stored (node : DistributedQueueNode δ) : ℕ :=
  node.queues.values.flatten.length + (node.processing.values.flatMap Dict.values).length

theorem length_gather {α β γ γ' : Type*} [DecidableEq α] {f : α → β → List γ} {g : β → List γ'}
    (hlength : ∀ key value, (f key value).length = (g value).length) (d : Dict α β) :
    (Dict.gather f d).length = (d.values.flatMap g).length := by
  rw [Dict.gather, Dict.values, List.flatMap_map, List.length_flatMap, List.length_flatMap]
  exact congrArg List.sum (List.map_congr_left fun e _ => hlength e.1 e.2)

/-- The number of messages is the number of places. -/
theorem stored_eq (node : DistributedQueueNode δ) : stored node = (located node).length := by
  have hwaiting : ∀ (name : String) (msgs : List (Message δ)),
      (waiting name msgs).length = (id msgs).length := fun _ _ => List.length_map _
  have hunderway : ∀ (name : String) (table : Dict String (Message δ)),
      (underway name table).length = table.values.length := fun _ _ => List.length_map _
  have hqueues := length_gather (f := waiting) (g := id) hwaiting node.queues
  have hprocessing := length_gather (f := underway) (g := Dict.values) hunderway node.processing
  rw [stored, located, List.length_append, hqueues, hprocessing, List.flatMap_id]

/-! ### The log and the answers -/

/-- A handler whose line is written, and that has not answered. -/
def written (node : DistributedQueueNode δ) : List (Writer δ) :=
  if node.appended = true then node.writers.take 1 else []

/-- The id of an ack. -/
def Writer.ackId? : Writer δ → Option String
  | .publish _ => none
  | .ack _ messageId => some messageId

/-- The queue and the id of a message. -/
def mark (msg : Message δ) : String × String := (msg.queue, msg.id)

/-- **The log and the answers agree.** -/
structure Mirrors (s : Service δ) : Prop where
  busy : s.node.appended = true → s.node.writers ≠ []
  enqueued : (enqueued s.node.wal).map mark =
    s.answers.filterMap enqueuedBy ++ ((written s.node).filterMap Writer.message?).map mark
  acked : acked s.node.wal ++ (unwritten s.node).filterMap Writer.ackId? = s.accepted

/-- The steps of a node that does not crash and whose appends succeed, where every publish has a
reading of its own. -/
def OwnReading (config : Config) (s : Service δ) : Action δ → Prop
  | .publish _ _ timeNs _ => messageId config timeNs ∉ s.minted
  | .walFail | .crash => False
  | _ => True

instance (config : Config) (s : Service δ) : DecidablePred (OwnReading config s)
  | .publish _ _ _ _ => inferInstanceAs (Decidable (¬ _))
  | .walFail | .crash => .isFalse id
  | .consume _ _ | .ack _ _ | .requeue _ | .walWrite | .walDone => .isTrue trivial
  | .recoverLine | .recoverEnd | .recoverFill => .isTrue trivial

theorem OwnReading.freshIds {config : Config} {s : Service δ} {a : Action δ}
    (h : OwnReading config s a) : FreshIds config s a := by
  cases a with
  | publish queueName message timeNs time => exact h
  | crash => exact h
  | _ => trivial

namespace Mirrors

variable {s s' : Service δ} {config : Config} {a : Action δ}

theorem of_frame (h : Mirrors s) (hwriters : s'.node.writers = s.node.writers)
    (happended : s'.node.appended = s.node.appended) (hwal : s'.node.wal = s.node.wal)
    (hanswers : s'.answers.filterMap enqueuedBy = s.answers.filterMap enqueuedBy)
    (haccepted : s'.accepted = s.accepted) : Mirrors s' := by
  have hwritten : written s'.node = written s.node := by
    rw [written, written, hwriters, happended]
  have hunwritten : unwritten s'.node = unwritten s.node := by
    rw [unwritten, unwritten, hwriters, happended]
  refine ⟨?_, ?_, ?_⟩
  · rw [happended, hwriters]
    exact h.busy
  · rw [hwal, hanswers, hwritten]
    exact h.enqueued
  · rw [hwal, hunwritten, haccepted]
    exact h.acked

/-- An answer that is not about a publish. -/
theorem answer (h : Mirrors s) {request : Request δ} {response : Response δ}
    (hnone : enqueuedBy (request, response) = none) : Mirrors (s.answer request response) := by
  refine h.of_frame rfl rfl rfl ?_ rfl
  rw [Service.answer, List.filterMap_append, List.filterMap_cons, hnone]
  exact List.append_nil _

/-- A handler that waits for the log. -/
theorem join (h : Mirrors s) {w : Writer δ} (hwriters : s'.node.writers = s.node.writers ++ [w])
    (happended : s'.node.appended = s.node.appended) (hwal : s'.node.wal = s.node.wal)
    (hanswers : s'.answers = s.answers)
    (haccepted : s'.accepted = s.accepted ++ w.ackId?.toList) : Mirrors s' := by
  have hwritten : written s'.node = written s.node := by
    rw [written, written, happended, hwriters]
    split
    · next hdone =>
        obtain ⟨first, rest, hcons⟩ := List.exists_cons_of_ne_nil (h.busy hdone)
        rw [hcons]
        rfl
    · rfl
  refine ⟨fun _ => ?_, ?_, ?_⟩
  · rw [hwriters]
    exact List.append_ne_nil_of_right_ne_nil _ (List.cons_ne_nil _ _)
  · rw [hwal, hanswers, hwritten]
    exact h.enqueued
  · rw [hwal, unwritten_append hwriters happended h.busy, List.filterMap_append, haccepted,
      ← h.acked, List.append_assoc]
    cases w <;> rfl

/-- A line is written. -/
theorem walWrite (h : Mirrors s) {w : Writer δ} {rest : List (Writer δ)}
    (hwriters : s.node.writers = w :: rest) (happended : s.node.appended = false) :
    Mirrors { s with node := { s.node with wal := s.node.wal ++ [w.entry], appended := true } } := by
  have hwritten : written s.node = [] := by
    rw [written, happended]
    rfl
  have hunwritten : unwritten s.node = w :: rest := by
    rw [unwritten, happended, ← hwriters]
    rfl
  have henqueued := h.enqueued
  have hacked := h.acked
  rw [hwritten, List.filterMap_nil, List.map_nil, List.append_nil] at henqueued
  rw [hunwritten] at hacked
  refine ⟨fun _ => ?_, ?_, ?_⟩
  · show s.node.writers ≠ []
    rw [hwriters]
    exact List.cons_ne_nil _ _
  · rw [written, if_pos rfl, hwriters, ← henqueued]
    cases w with
    | publish msg => rw [Writer.entry, enqueued_snoc_enqueue, List.map_append]; rfl
    | ack queueName messageId =>
        rw [Writer.entry, enqueued_snoc_ack]
        exact (List.append_nil _).symm
  · rw [unwritten, if_pos rfl, hwriters, ← hacked]
    cases w with
    | publish msg => rw [Writer.entry, acked_snoc_enqueue]; rfl
    | ack queueName messageId =>
        rw [Writer.entry, acked_snoc_ack, List.append_assoc]
        rfl

/-- The first handler answers. -/
theorem walDone (h : Mirrors s) {w : Writer δ} {rest : List (Writer δ)}
    (hwriters : s.node.writers = w :: rest) (happended : s.node.appended = true) :
    Mirrors ({ s with
      node := w.complete { s.node with writers := rest, appended := false } }.answer
        w.request w.response) := by
  obtain ⟨hw, ha, -, hl⟩ := complete_frame { s.node with writers := rest, appended := false } w
  have hwritten : written s.node = [w] := by
    rw [written, if_pos happended, hwriters]
    rfl
  have hunwritten : unwritten s.node = rest := by
    rw [unwritten, if_pos happended, hwriters]
    rfl
  have henqueued := h.enqueued
  have hacked := h.acked
  rw [hwritten] at henqueued
  rw [hunwritten] at hacked
  refine ⟨fun hdone => absurd (ha.symm.trans hdone) Bool.false_ne_true, ?_, ?_⟩
  · have hnone : written (w.complete { s.node with writers := rest, appended := false }) = [] := by
      rw [written, ha]
      rfl
    show (QueueNode.enqueued (w.complete { s.node with writers := rest, appended := false }).wal).map
      mark = _
    rw [hl, Service.answer, hnone, List.filterMap_append]
    refine henqueued.trans ?_
    cases w <;> exact (List.append_nil _).symm
  · have hrest :
        unwritten (w.complete { s.node with writers := rest, appended := false }) = rest := by
      rw [unwritten, ha, hw]
      rfl
    show QueueNode.acked (w.complete { s.node with writers := rest, appended := false }).wal ++
      (unwritten (w.complete { s.node with writers := rest, appended := false })).filterMap _ = _
    rw [hl, hrest]
    exact hacked

theorem step (h : Mirrors s) (hok : OwnReading config s a) (hmove : Moves config s a s') :
    Mirrors s' := by
  cases hmove with
  | refuse hrequest error status => exact h.answer (by cases ‹Request δ› <;> rfl)
  | publish hname => exact h.join rfl rfl rfl rfl (List.append_nil _).symm
  | empty hempty =>
      obtain ⟨hw, ha, -, hl⟩ := localDequeue_frame config s.node _ _
      refine Mirrors.answer ?_ rfl
      exact h.of_frame hw ha hl rfl rfl
  | consume hqueue =>
      obtain ⟨hw, ha, -, hl⟩ := localDequeue_frame config s.node _ _
      refine Mirrors.answer ?_ rfl
      exact h.of_frame hw ha hl rfl rfl
  | ack hfound => exact h.join rfl rfl rfl rfl rfl
  | notFound hfound =>
      refine Mirrors.answer ?_ rfl
      exact h.of_frame rfl rfl rfl rfl rfl
  | requeue hrecovery =>
      obtain ⟨hw, ha, -, hl⟩ := requeueExpired_frame s.node _
      exact h.of_frame hw ha hl rfl rfl
  | walWrite hwriters happended => exact h.walWrite hwriters happended
  | walFail hwriters happended => exact hok.elim
  | walDone hwriters happended => exact h.walDone hwriters happended
  | crash => exact hok.elim
  | recoverLine hrecovery hentry hatEnd => exact h.of_frame rfl rfl rfl rfl rfl
  | recoverEnd hrecovery hposition => exact h.of_frame rfl rfl rfl rfl rfl
  | recoverFill hrecovery hatEnd => exact h.of_frame rfl rfl rfl rfl rfl

/-- Where no handler waits, the lines are the answers. -/
theorem quiet (h : Mirrors s) (hquiet : s.node.writers = []) :
    (QueueNode.enqueued s.node.wal).map mark = s.answers.filterMap enqueuedBy ∧
      QueueNode.acked s.node.wal = s.accepted := by
  have hidle : s.node.appended = false := Bool.eq_false_iff.2 fun hdone => h.busy hdone hquiet
  have henqueued := h.enqueued
  have hacked := h.acked
  rw [written, hidle] at henqueued
  rw [unwritten, hidle, hquiet] at hacked
  exact ⟨henqueued.trans (List.append_nil _), (List.append_nil _).symm.trans hacked⟩

end Mirrors

/-! ### A recovery that nothing disturbs -/

/-- The steps of a recovery. -/
def Recovering (_ : Service δ) : Action δ → Prop
  | .recoverLine | .recoverEnd | .recoverFill => True
  | _ => False

instance (s : Service δ) : DecidablePred (Recovering s)
  | .recoverLine | .recoverEnd | .recoverFill => .isTrue trivial
  | .publish _ _ _ _ | .consume _ _ | .ack _ _ | .requeue _ => .isFalse id
  | .walWrite | .walFail | .walDone | .crash => .isFalse id

/-- What the node has read of the log, or has restored from it. -/
structure Restoring (wal : List (WalEntry δ)) (node : DistributedQueueNode δ) : Prop where
  wal_eq : node.wal = wal
  processing : node.processing = ∅
  reading : ∀ r ∈ node.recovery, r.Reads wal ∧ (r.atEnd = true → r.position = wal.length) ∧
    node.queues = ∅
  restored : node.recovery = none → node.queues = fillQueues (readLines wal) ∅

theorem Restoring.step {config : Config} {wal : List (WalEntry δ)} {s s' : Service δ}
    {a : Action δ} (h : Restoring wal s.node) (hok : Recovering s a) (hmove : Moves config s a s') :
    Restoring wal s'.node := by
  cases hmove with
  | refuse hrequest => cases a <;> first | exact hok.elim | cases hrequest
  | @recoverLine r entry hrecovery hentry hatEnd =>
      refine ⟨h.wal_eq, h.processing, fun r' hr' => ?_, fun hnone => (by cases hnone)⟩
      cases hr'
      obtain ⟨hread, -, hqueues⟩ := h.reading r hrecovery
      rw [h.wal_eq] at hentry
      refine ⟨hread.readLine hentry hatEnd, fun hend => ?_, hqueues⟩
      cases entry <;> exact absurd (hatEnd.symm.trans hend) Bool.false_ne_true
  | @recoverEnd r hrecovery hposition =>
      refine ⟨h.wal_eq, h.processing, fun r' hr' => ?_, fun hnone => (by cases hnone)⟩
      cases hr'
      obtain ⟨hread, -, hqueues⟩ := h.reading r hrecovery
      exact ⟨hread, fun _ => h.wal_eq ▸ hposition, hqueues⟩
  | @recoverFill r hrecovery hatEnd =>
      refine ⟨h.wal_eq, h.processing, fun r' hr' => (by cases hr'), fun _ => ?_⟩
      obtain ⟨hread, hend, hqueues⟩ := h.reading r hrecovery
      show fillQueues r s.node.queues = _
      rw [hread.fillQueues_eq, hend hatEnd, List.take_length, hqueues]
  | _ => exact hok.elim

theorem restoring_start (wal : List (WalEntry δ)) : Restoring wal (start wal) where
  wal_eq := rfl
  processing := rfl
  reading := fun r hr => by
    cases hr
    exact ⟨.empty, fun hend => absurd hend Bool.false_ne_true, rfl⟩
  restored := fun hnone => by cases hnone

/-- **What a recovery leaves that nothing disturbs.** -/
theorem recovering_run {config : Config} {s s' : Service δ}
    (h : Run (step config) Recovering { s with node := start s.node.wal } s')
    (hdone : s'.node.recovery = none) :
    located s'.node = located (opened s.node.wal).node := by
  have hrestored := h.invariant (I := fun s' => Restoring s.node.wal s'.node)
    (fun _ _ _ hI hok hstep => hI.step hok (moves_of_step hstep)) (restoring_start s.node.wal)
  rw [located, hrestored.restored hdone, hrestored.processing]
  rfl

/-- The steps that a recovery still needs. -/
def recoveryWork (node : DistributedQueueNode δ) : ℕ :=
  match node.recovery with
  | none => 0
  | some r => if r.atEnd = true then 1 else node.wal.length - r.position + 2

/-- A recovery always gets to its end. -/
theorem exists_recovered (config : Config) (s : Service δ) :
    ∃ s', Run (step config) Recovering { s with node := start s.node.wal } s' ∧
      s'.node.recovery = none := by
  refine Run.exists_of_work (I := fun s' => Restoring s.node.wal s'.node)
    (fun s' => recoveryWork s'.node) (fun t hI hbusy => ?_) (restoring_start s.node.wal)
  obtain ⟨r, hr⟩ := Option.ne_none_iff_exists'.1 hbusy
  obtain ⟨hread, -, -⟩ := hI.reading r hr
  have hle := hread.position_le
  rw [← hI.wal_eq] at hle
  -- the next line, the end of the file, or the fill
  have hnext : ∃ a t', Recovering t a ∧ step config t a = some t' ∧
      recoveryWork t'.node < recoveryWork t.node := by
    cases hend : r.atEnd with
    | true =>
        refine ⟨.recoverFill, _, trivial, by simp only [step, hr, hend]; rfl, ?_⟩
        simp only [recoveryWork, hr, hend]
        exact Nat.zero_lt_one
    | false =>
        by_cases hlast : r.position = t.node.wal.length
        · refine ⟨.recoverEnd, _, trivial, by simp only [step, hr, if_pos hlast]; rfl, ?_⟩
          simp only [recoveryWork, hr, hend, Bool.false_eq_true, if_false, if_true]
          omega
        · obtain ⟨entry, hentry⟩ : ∃ entry, t.node.wal[r.position]? = some entry :=
            ⟨_, List.getElem?_eq_getElem (lt_of_le_of_ne hle hlast)⟩
          refine ⟨.recoverLine, _, trivial, by simp only [step, hr, hentry, hend]; rfl, ?_⟩
          have hatEnd : (r.readLine entry).atEnd = false := by cases entry <;> exact hend
          simp only [recoveryWork, hr, hend, hatEnd, readLine_position, Bool.false_eq_true, if_false]
          omega
  obtain ⟨a, t', hok, hstep, hless⟩ := hnext
  exact ⟨a, t', hok, hstep, hI.step hok (moves_of_step hstep), hless⟩

/-! ### The numbers -/

/-- The answered publishes. -/
def published (s : Service δ) : List (String × String) := s.answers.filterMap enqueuedBy

theorem entered_nil (s : Service δ) : entered [] s = published s := rfl

/-- What is in memory are the answered publishes whose ack was not accepted. -/
theorem Conserved.located_perm {s : Service δ} (h : Conserved [] s) :
    ((located s.node).map spot).Perm ((published s).filter fun p => p.2 ∉ s.accepted) := by
  obtain ⟨out, hout, hperm⟩ := h.conserved
  have hkept : ((located s.node).map spot).filter (fun p => p.2 ∉ s.accepted) =
      (located s.node).map spot := by
    refine List.filter_eq_self.2 fun p hp => ?_
    obtain ⟨place, hplace, rfl⟩ := List.mem_map.1 hp
    exact decide_eq_true fun hid => h.not_located hid place hplace rfl
  have hdropped : out.filter (fun p => p.2 ∉ s.accepted) = [] := by
    refine List.filter_eq_nil_iff.2 fun p hp => ?_
    have hid : p.2 ∈ s.accepted := hout ▸ List.mem_map_of_mem hp
    simpa using hid
  have hfilter := hperm.filter fun p => decide (p.2 ∉ s.accepted)
  rw [List.filter_append, hkept, hdropped, List.append_nil] at hfilter
  exact hfilter

/-- A recovery where no handler waits brings the same messages back. -/
theorem located_opened_perm {s : Service δ} (h : Conserved [] s) (hM : Mirrors s)
    (hquiet : s.node.writers = []) :
    ((located (opened s.node.wal).node).map spot).Perm ((located s.node).map spot) := by
  obtain ⟨henqueued, hacked⟩ := hM.quiet hquiet
  have hids : ((enqueued s.node.wal).map Message.id).Nodup := by
    have hentered := (List.nodup_append.1 h.fresh).1
    rw [entered_nil, published, ← henqueued, List.map_map] at hentered
    exact hentered
  obtain ⟨out, hout, hperm⟩ := (conserved_opened hids).conserved
  have hnone : out = [] := List.map_eq_nil_iff.1 hout
  rw [hnone, List.append_nil] at hperm
  refine hperm.trans (List.Perm.trans ?_ h.located_perm.symm)
  have hopened : entered s.node.wal (opened s.node.wal) =
      ((enqueued s.node.wal).filter fun m => m.id ∉ acked s.node.wal).map mark :=
    List.append_nil _
  rw [hopened, published, ← henqueued, List.filter_map, hacked]
  exact List.Perm.refl _

/-- **The numbers are right, and a recovery keeps them.**  In a run of one node in which every
publish has a reading of its own, where no handler is in the middle of something, the messages in
queues and in flight and the accepted acks are together as many as the answered publishes.  A
recovery after a crash at such a moment gets to its end, and then holds the same messages. -/
theorem counts {config : Config} {s : Service δ}
    (h : Run (step config) (OwnReading config) (opened []) s) (hquiet : s.node.writers = []) :
    stored s.node + s.accepted.length = (published s).length ∧
    (∃ s', Run (step config) Recovering { s with node := start s.node.wal } s' ∧
      s'.node.recovery = none) ∧
    ∀ s', Run (step config) Recovering { s with node := start s.node.wal } s' →
      s'.node.recovery = none → stored s'.node = stored s.node ∧
        ((located s'.node).map spot).Perm ((located s.node).map spot) := by
  have hconserved : Conserved [] s :=
    conserved_run List.nodup_nil (h.mono fun _ _ hok => hok.freshIds)
  have hmirrors : Mirrors s :=
    h.invariant (fun _ _ _ hI hok hstep => hI.step hok (moves_of_step hstep))
      ⟨fun hdone => absurd hdone Bool.false_ne_true, rfl, rfl⟩
  refine ⟨?_, exists_recovered config s, fun s' hrun hdone => ?_⟩
  · obtain ⟨out, hout, hperm⟩ := hconserved.conserved
    have hlength := hperm.length_eq
    rw [List.length_append, List.length_map, entered_nil] at hlength
    rw [stored_eq, ← hout, List.length_map, hlength]
  · have hperm := located_opened_perm hconserved hmirrors hquiet
    rw [stored_eq, stored_eq, recovering_run hrun hdone]
    refine ⟨?_, hperm⟩
    have hlength := hperm.length_eq
    rwa [List.length_map, List.length_map] at hlength

/-- The readings of the clock that the publishes of a run get. -/
def readings (actions : List (Action δ)) : List ℕ :=
  actions.filterMap fun
    | .publish _ _ timeNs _ => some timeNs
    | _ => none

/-- The node does not crash, and no append fails. -/
def Undisturbed (_ : Service δ) : Action δ → Prop
  | .walFail | .crash => False
  | _ => True

instance (s : Service δ) : DecidablePred (Undisturbed s)
  | .walFail | .crash => .isFalse id
  | .publish _ _ _ _ | .consume _ _ | .ack _ _ | .requeue _ | .walWrite | .walDone => .isTrue trivial
  | .recoverLine | .recoverEnd | .recoverFill => .isTrue trivial

/-- The run of `takenTwice` to its end, where one message is acknowledged and the other in flight. -/
theorem counts_takenTwice :
    ∃ s s' : Service ℕ, Run (step worker) (OwnReading worker) (opened []) s ∧
      Run (step worker) Recovering { s with node := start s.node.wal } s' ∧
      stored s.node + 1 = 2 ∧ stored s'.node = stored s.node := by
  obtain ⟨s, hs, hquiet, haccepted, hpublished⟩ := Run.exists_of_exec (step worker)
    (OwnReading worker) (opened []) (takenTwice ++ [.walWrite, .walDone])
    (fun s => s.node.writers.isEmpty = true ∧ s.accepted.length = 1 ∧ (published s).length = 2)
    (by decide +kernel)
  obtain ⟨hcount, ⟨s', hrun, hdone⟩, hrecovered⟩ := counts hs (List.isEmpty_iff.1 hquiet)
  rw [haccepted, hpublished] at hcount
  exact ⟨s, s', hs, hrun, hcount, (hrecovered s' hrun hdone).1⟩

/-- Two messages of one queue that get one reading of the clock. -/
def oneReading : List (Action ℕ) :=
  [.publish "jobs" (some 7) 1 0, .walWrite, .walDone,
    .publish "jobs" (some 8) 1 0, .walWrite, .walDone]

/-- When both are taken one of them is gone, and so it is after a crash. -/
theorem counts_fail :
    (¬ ∀ (actions : List (Action ℕ)) (s : Service ℕ), (readings actions).Pairwise (· ≤ ·) →
      exec (step worker) Undisturbed (opened []) actions = some s → s.node.writers = [] →
        stored s.node + s.accepted.length = (published s).length) ∧
    ¬ ∀ (actions : List (Action ℕ)) (s s' : Service ℕ), (readings actions).Pairwise (· ≤ ·) →
      exec (step worker) Undisturbed (opened []) actions = some s → s.node.writers = [] →
        Run (step worker) Recovering { s with node := start s.node.wal } s' →
          s'.node.recovery = none → stored s'.node + s.accepted.length = (published s).length := by
  constructor
  · intro hall
    have hexec : ((exec (step worker) Undisturbed (opened [])
        (oneReading ++ [.consume "jobs" 1, .consume "jobs" 2])).any fun s =>
          s.node.writers.isEmpty &&
            decide (stored s.node + s.accepted.length ≠ (published s).length)) = true := by
      decide +kernel
    obtain ⟨s, hs, hcounts⟩ := (Option.any_eq_true _ _).1 hexec
    obtain ⟨hquiet, hne⟩ := Bool.and_eq_true_iff.1 hcounts
    exact of_decide_eq_true hne (hall _ s (by decide) hs (List.isEmpty_iff.1 hquiet))
  · intro hall
    have hexec : ((exec (step worker) Undisturbed (opened []) oneReading).any fun s =>
        s.node.writers.isEmpty && (exec (step worker) Recovering { s with node := start s.node.wal }
          [.recoverLine, .recoverLine, .recoverEnd, .recoverFill]).any fun s' =>
            s'.node.recovery.isNone &&
              decide (stored s'.node + s.accepted.length ≠ (published s).length)) = true := by
      decide +kernel
    obtain ⟨s, hs, hcounts⟩ := (Option.any_eq_true _ _).1 hexec
    obtain ⟨hquiet, hrecovers⟩ := Bool.and_eq_true_iff.1 hcounts
    obtain ⟨s', hs', hne⟩ := (Option.any_eq_true _ _).1 hrecovers
    obtain ⟨hdone, hne⟩ := Bool.and_eq_true_iff.1 hne
    exact of_decide_eq_true hne (hall _ s s' (by decide) hs (List.isEmpty_iff.1 hquiet)
      (Run.of_exec _ hs') (Option.isNone_iff_eq_none.1 hdone))

end QueueNode
