/-
**Published messages after a crash, when appends may fail.**

`_append_to_wal` catches the exception of a failed append and logs it, so the handler that awaits it
goes on: a publish puts its message into the queue and answers `enqueued`.  If the node crashes
then, nothing in the log tells of the message.

Failing appends of acks do no harm to messages that are not accepted: whatever fails and whenever
the node crashes, the `ACK` lines are those of accepted acks, and no id is logged more often than it
has been given to a message (`QueueNode.LogInv`).

Main definitions:

* `QueueNode.PublishLogged` — the appends of publishes do not fail;
* `QueueNode.Stays` — the node does not crash.

Main results:

* `QueueNode.mem_queueOf_fillQueues` — a fill brings back every id that is not acknowledged;
* `QueueNode.durable` — **a message whose publish was answered survives crashes**;
* `QueueNode.durable_fails` — one with a failed append need not.
-/

import DistSync.QueueRaces

set_option relaxedAutoImplicit false
set_option autoImplicit false

namespace QueueNode

open Runs

variable {δ : Type*}

/-! ### Reading and filling with any ids -/

/-- Of the messages with the same id, the last one is kept. -/
theorem get?_readLines {lines : List (WalEntry δ)} {m : Message δ} (hm : m ∈ enqueued lines) :
    ∃ m' ∈ enqueued lines, m'.id = m.id ∧
      (inFlight (readLines lines).tempQueues m.queue).get? m.id = some m' := by
  induction lines using List.reverseRecOn with
  | nil => cases hm
  | append_singleton lines entry ih =>
      rw [readLines_snoc]
      cases entry with
      | ack id =>
          rw [enqueued_snoc_ack] at hm ⊢
          exact ih hm
      | enqueue m₁ =>
          rw [enqueued_snoc_enqueue] at hm ⊢
          simp only [Recovery.readLine, inFlight_set]
          by_cases hsame : m.queue = m₁.queue ∧ m.id = m₁.id
          · refine ⟨m₁, List.mem_append_right _ (List.mem_singleton_self _), hsame.2.symm, ?_⟩
            rw [if_pos hsame.1, hsame.2, Dict.get?_set_self]
          · have hold : m ∈ enqueued lines := by
              rcases List.mem_append.1 hm with hm | hm
              · exact hm
              · rw [List.mem_singleton.1 hm] at hsame
                exact absurd ⟨rfl, rfl⟩ hsame
            obtain ⟨m', hm', hid, hget⟩ := ih hold
            refine ⟨m', List.mem_append_left _ hm', hid, ?_⟩
            split
            · next hname =>
                rw [Dict.get?_set, if_neg fun hid => hsame ⟨hname, hid⟩, ← hname]
                exact hget
            · exact hget

/-- **A fill brings back every id that is not acknowledged.** -/
theorem mem_queueOf_fillQueues {lines : List (WalEntry δ)} {m : Message δ}
    (hm : m ∈ enqueued lines) (hid : m.id ∉ acked lines)
    (queues : Dict String (List (Message δ))) :
    ∃ m' ∈ enqueued lines, m'.id = m.id ∧
      m' ∈ queueOf (fillQueues (readLines lines) queues) m.queue := by
  obtain ⟨m', hm', hsame, hget⟩ := get?_readLines hm
  refine ⟨m', hm', hsame, ?_⟩
  rw [queueOf_fillQueues]
  refine List.mem_append_right _ (List.mem_map.2 ⟨(m.id, m'), List.mem_filter.2 ⟨?_, ?_⟩, rfl⟩)
  · exact Dict.get?_eq_some_iff.1 hget
  · simpa [mem_readLines_ackedIds] using hid

/-! ### Answered publishes -/

/-- The appends of publishes do not fail. -/
def PublishLogged (s : Service δ) : Action δ → Prop
  | .walFail => ∀ w ∈ s.node.writers.head?, w.message?.isNone = true
  | _ => True

instance (s : Service δ) : DecidablePred (PublishLogged s)
  | .walFail => inferInstanceAs (Decidable (∀ w ∈ _, _))
  | .publish _ _ _ _ | .consume _ _ | .ack _ _ | .requeue _ => .isTrue trivial
  | .walWrite | .walDone | .crash | .recoverLine | .recoverEnd | .recoverFill => .isTrue trivial

/-- The messages of answered publishes are logged. -/
theorem publishesLogged_run {config : Config} {s : Service δ}
    (h : Run (step config) PublishLogged initial s) :
    AnswersLogged (fun w => w.message?.isSome = true) s := by
  refine (h.invariant
    (I := fun s => LogInv s ∧ AnswersLogged (fun w => w.message?.isSome = true) s)
    (fun s a s' hI hok hstep => ?_)
    ⟨logInv_initial, ⟨fun h => (by cases h), fun _ h => (by cases h)⟩⟩).2
  have hmove := moves_of_step hstep
  refine ⟨hI.1.step hmove, hI.2.step hI.1.acks.busy ?_ hmove⟩
  rintro rfl w hw hsome
  rw [Option.isSome_iff_ne_none] at hsome
  exact hsome (Option.isNone_iff_eq_none.1 (hok w hw))

/-! ### A crash and the recovery after it -/

/-- The node does not crash. -/
def Stays (_ : Service δ) : Action δ → Prop
  | .crash => False
  | _ => True

instance (s : Service δ) : DecidablePred (Stays s)
  | .crash => .isFalse id
  | .publish _ _ _ _ | .consume _ _ | .ack _ _ | .requeue _ => .isTrue trivial
  | .walWrite | .walFail | .walDone | .recoverLine | .recoverEnd | .recoverFill => .isTrue trivial

theorem reading_run {config : Config} {wal : List (WalEntry δ)} {s s' : Service δ}
    (h : Run (step config) Stays s s') (hs : Reading wal s) : Reading wal s' := by
  refine h.invariant (fun _ a _ hI hok hstep => hI.step ?_ (moves_of_step hstep)) hs
  rintro rfl
  exact hok

/-- **A message whose publish was answered survives crashes.**  In a run of any length, with any
number of crashes and of failed appends, but none of a publish, let the node crash once more and
recover, while it serves requests and while appends may fail.  When it fills the queues, every
message whose publish was answered before, and no ack of which has been accepted, is in its queue:
a message with its id in any case, and with its body if no id has been given twice. -/
theorem durable {config : Config} {s s₁ s₂ s₃ : Service δ}
    (h : Run (step config) PublishLogged initial s) (hcrash : step config s .crash = some s₁)
    (hrun : Run (step config) Stays s₁ s₂) (hfill : step config s₂ .recoverFill = some s₃)
    (name : String) (data : Option δ) (id : String)
    (hanswer : (Request.publish name data, Response.enqueued id) ∈ s.answers)
    (hid : id ∉ s₃.accepted) :
    ∃ m ∈ queueOf s₃.node.queues name,
      m.id = id ∧ (s₃.minted.Nodup → some m.data = data) := by
  obtain ⟨m, hm, rfl, rfl, hdata⟩ := (publishesLogged_run h).published (fun _ => rfl) hanswer
  obtain rfl : { s with node := start s.node.wal } = s₁ := Option.some.inj hcrash
  have hreading : Reading s.node.wal s₂ := reading_run hrun (reading_start s.node.wal rfl)
  have hlog : LogInv s₂ :=
    hrun.invariant (fun _ _ _ hI _ hstep => hI.step (moves_of_step hstep))
      ((logInv_run h).step (moves_of_step hcrash))
  cases moves_of_step hfill with
  | refuse hrequest error status => cases hrequest
  | @recoverFill r hrecovery hatEnd =>
      obtain ⟨lines, hlines⟩ := hreading.exists_take hrecovery hatEnd
      have hread : m ∈ enqueued (s.node.wal ++ lines) :=
        mem_enqueued.2 (List.mem_append_left _ (mem_enqueued.1 hm))
      have hsub : ∀ entry ∈ s.node.wal ++ lines, entry ∈ s₂.node.wal := by
        rw [← hlines]
        exact fun _ => List.mem_of_mem_take
      have hnotAcked : m.id ∉ acked (s.node.wal ++ lines) := fun hacked =>
        hid (hlog.acks.accepted _ (mem_acked.2 (hsub _ (mem_acked.1 hacked))))
      obtain ⟨m', hm', hsame, hqueue⟩ :=
        mem_queueOf_fillQueues hread hnotAcked s₂.node.queues
      refine ⟨m', ?_, hsame, fun hnodup => ?_⟩
      · rw [(hreading.reads r hrecovery).fillQueues_eq, hlines]
        exact hqueue
      · -- both messages are logged, and logged ids are distinct
        have hids : ((enqueued s₂.node.wal).map Message.id).Nodup :=
          (hlog.nodup hnodup).sublist ((List.sublist_append_left _ _).map _)
        have heq : m' = m := List.inj_on_of_nodup_map hids
          (mem_enqueued.2 (hsub _ (mem_enqueued.1 hm')))
          (mem_enqueued.2 (hsub _ (mem_enqueued.1 hread))) hsame
        rw [heq]
        exact hdata

/-- The node crashes, takes the given steps without another crash, and fills its queues. -/
def crashAndFill (config : Config) (as : List (Action δ)) (s : Service δ) : Option (Service δ) :=
  (step config s .crash).bind fun s₁ =>
    (exec (step config) Stays s₁ as).bind fun s₂ => step config s₂ .recoverFill

theorem exists_of_crashAndFill {config : Config} {as : List (Action δ)} {s s₃ : Service δ}
    (h : crashAndFill config as s = some s₃) :
    ∃ s₁ s₂, step config s .crash = some s₁ ∧ Run (step config) Stays s₁ s₂ ∧
      step config s₂ .recoverFill = some s₃ := by
  obtain ⟨s₁, hcrash, h⟩ := Option.bind_eq_some_iff.1 h
  obtain ⟨s₂, hexec, hfill⟩ := Option.bind_eq_some_iff.1 h
  exact ⟨s₁, s₂, hcrash, Run.of_exec as hexec, hfill⟩

/-- A message is taken and acknowledged, but the append of the ack fails; another one stays. -/
def failedAck : List (Action ℕ) :=
  [.recoverEnd, .recoverFill, .publish "jobs" (some 7) 1 0, .walWrite, .walDone, .consume "jobs" 1,
    .ack "jobs" "worker-1", .walFail, .walDone, .publish "jobs" (some 8) 2 2, .walWrite, .walDone]

/-- While two lines are read, the append of a publish fails. -/
def failedRestart : List (Action ℕ) :=
  [.recoverLine, .publish "jobs" (some 9) 3 3, .walFail, .recoverLine, .walDone, .recoverEnd]

theorem durable_failedAck :
    ∃ s s₁ s₂ s₃ : Service ℕ, Run (step worker) PublishLogged initial s ∧
      step worker s .crash = some s₁ ∧ Run (step worker) Stays s₁ s₂ ∧
      step worker s₂ .recoverFill = some s₃ ∧
      ∃ m ∈ queueOf s₃.node.queues "jobs",
        m.id = "worker-2" ∧ (s₃.minted.Nodup → some m.data = some 8) := by
  obtain ⟨s, hs, hanswer, hany⟩ := Run.exists_of_exec (step worker) PublishLogged initial failedAck
    (fun s => (.publish "jobs" (some 8), .enqueued "worker-2") ∈ s.answers ∧
      (crashAndFill worker failedRestart s).any (fun s₃ => "worker-2" ∉ s₃.accepted) = true)
    (by decide)
  obtain ⟨s₃, hs₃, haccepted⟩ := (Option.any_eq_true _ _).1 hany
  obtain ⟨s₁, s₂, hcrash, hrun, hfill⟩ := exists_of_crashAndFill hs₃
  exact ⟨s, s₁, s₂, s₃, hs, hcrash, hrun, hfill,
    durable hs hcrash hrun hfill "jobs" (some 8) "worker-2" hanswer (of_decide_eq_true haccepted)⟩

/-- The append of a publish fails. -/
def failedPublish : List (Action ℕ) :=
  [.recoverEnd, .recoverFill, .publish "jobs" (some 7) 1 0, .walFail, .walDone]

/-- Its message is not there after a crash, though the publish was answered. -/
theorem durable_fails : ¬ ∀ s s₁ s₂ s₃ : Service ℕ, Run (step worker) anyAction initial s →
    step worker s .crash = some s₁ → Run (step worker) Stays s₁ s₂ →
    step worker s₂ .recoverFill = some s₃ →
    ∀ name data id, (Request.publish name data, Response.enqueued id) ∈ s.answers →
      id ∉ s₃.accepted → ∃ m ∈ queueOf s₃.node.queues name, m.id = id := by
  intro h
  obtain ⟨s, hs, hanswer, hany⟩ := Run.exists_of_exec (step worker) anyAction initial failedPublish
    (fun s => (.publish "jobs" (some 7), .enqueued "worker-1") ∈ s.answers ∧
      (crashAndFill worker [.recoverEnd] s).any (fun s₃ =>
        s₃.accepted = [] ∧ (queueOf s₃.node.queues "jobs").map Message.id = []) = true)
    (by decide)
  obtain ⟨s₃, hs₃, hempty⟩ := (Option.any_eq_true _ _).1 hany
  obtain ⟨haccepted, hqueue⟩ := of_decide_eq_true hempty
  obtain ⟨s₁, s₂, hcrash, hrun, hfill⟩ := exists_of_crashAndFill hs₃
  obtain ⟨m, hm, -⟩ := h s s₁ s₂ s₃ hs hcrash hrun hfill "jobs" (some 7) "worker-1" hanswer
    (haccepted ▸ nofun)
  rw [List.map_eq_nil_iff.1 hqueue] at hm
  cases hm

end QueueNode
