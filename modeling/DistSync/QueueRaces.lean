/-
**Requests during the recovery.**

The server of a queue node is open before the node has read its log.  A message that is published
then is in memory, and its `ENQUEUE` line is behind the lines that are being read: the reader may
reach it, and the fill then takes the message for one that has been lost in a crash.  It does so
unless the `ACK` line of the message is in the file as well when the reader sees the end.

The handlers do not look at the recovery.  So a run from a start with any log is, until the fill, a
run of a node that has nothing to recover (`QueueNode.Moves.live`), to which the messages of
`QueueNode.Conserved` apply; and the fill adds the places of a node that has read the log
undisturbed, provided that it adds nothing else.

Main definitions:

* `QueueNode.restarted` — a node that starts with a given log;
* `QueueNode.OnceEach` — **every message that is not acknowledged is in one place, every other one
  in none**;
* `QueueNode.Settled` — the reader finds no unacknowledged message of this start;
* `QueueNode.RacingInv` — the node between its start and its fill, and after it.

Main results:

* `QueueNode.gather_waiting_append` — the places of deques that are put together;
* `QueueNode.racing_once` — **settled recoveries keep every message once**;
* `QueueNode.racing_twice` — the others need not.
-/

import DistSync.QueueConservation

set_option relaxedAutoImplicit false
set_option autoImplicit false

namespace QueueNode

open Runs

variable {δ : Type*}

/-! ### A start with a log -/

/-- The ids in the lines of a log, once each. -/
def walIds (wal : List (WalEntry δ)) : List String :=
  ((enqueued wal).map Message.id ++ acked wal).dedup

theorem id_mem_walIds {wal : List (WalEntry δ)} {m : Message δ} (hm : m ∈ enqueued wal) :
    m.id ∈ walIds wal :=
  List.mem_dedup.2 (List.mem_append_left _ (List.mem_map_of_mem hm))

theorem mem_walIds_of_acked {wal : List (WalEntry δ)} {id : String} (hid : id ∈ acked wal) :
    id ∈ walIds wal :=
  List.mem_dedup.2 (List.mem_append_right _ hid)

/-- A node that starts with the log `wal`. -/
def restarted (wal : List (WalEntry δ)) : Service δ := ⟨start wal, walIds wal, [], []⟩

/-- Requests are served at any time: every message gets a fresh id, no append fails, and the node
does not crash. -/
def Serving (config : Config) (s : Service δ) : Action δ → Prop
  | .publish _ _ timeNs _ => messageId config timeNs ∉ s.minted
  | .walFail | .crash => False
  | _ => True

instance (config : Config) (s : Service δ) : DecidablePred (Serving config s)
  | .publish _ _ _ _ => inferInstanceAs (Decidable (¬ _))
  | .walFail | .crash => .isFalse id
  | .consume _ _ | .ack _ _ | .requeue _ | .walWrite | .walDone => .isTrue trivial
  | .recoverLine | .recoverEnd | .recoverFill => .isTrue trivial

/-- When the reader sees the end of the file, every message whose `ENQUEUE` line was written since
the start has its `ACK` line in the file. -/
def Settled (wal : List (WalEntry δ)) (s : Service δ) : Action δ → Prop
  | .recoverEnd => ∀ m ∈ enqueued (s.node.wal.drop wal.length), m.id ∈ acked s.node.wal
  | _ => True

instance (wal : List (WalEntry δ)) (s : Service δ) : DecidablePred (Settled wal s)
  | .recoverEnd => inferInstanceAs (Decidable (∀ m ∈ _, _))
  | .publish _ _ _ _ | .consume _ _ | .ack _ _ | .requeue _ => .isTrue trivial
  | .walWrite | .walFail | .walDone | .crash | .recoverLine | .recoverFill => .isTrue trivial

/-- **Every message that has been enqueued and not acknowledged is in exactly one place**, the deque
or the table of its queue, and no acknowledged message is in memory. -/
def OnceEach (wal : List (WalEntry δ)) (s : Service δ) : Prop :=
  (∀ name id, (name, id) ∈ entered wal s → id ∉ s.accepted → ∃ msg : Message δ,
    (located s.node).filter (fun place => place.2.id = id) = [(name, msg)] ∧ msg.queue = name) ∧
  (∀ id, id ∈ acked wal ∨ id ∈ s.accepted → ∀ place ∈ located s.node, place.2.id ≠ id)

theorem Serving.logged {config : Config} {s : Service δ} {a : Action δ} (h : Serving config s a) :
    Logged config s a := by
  cases a with
  | publish queueName message timeNs time => exact h
  | walFail => exact h
  | _ => trivial

theorem Serving.freshIds {config : Config} {s : Service δ} {a : Action δ}
    (h : Serving config s a) : FreshIds config s a := by
  cases a with
  | publish queueName message timeNs time => exact h
  | crash => exact h
  | _ => trivial

/-! ### The handlers do not look at the recovery -/

/-- The steps that are not taken by `_recover_from_wal`. -/
def Action.serves : Action δ → Prop
  | .crash | .recoverLine | .recoverEnd | .recoverFill => False
  | _ => True

/-- The node without its recovery. -/
def Service.live (s : Service δ) : Service δ := { s with node := { s.node with recovery := none } }

/-- The same service, where some ids have been acknowledged before. -/
def Service.aged (s : Service δ) (ids : List String) : Service δ :=
  { s with accepted := ids ++ s.accepted }

theorem live_eq {s : Service δ} (h : s.node.recovery = none) : s.live = s := by
  rw [Service.live, ← h]

theorem localDequeue_live (config : Config) (s : Service δ) (name : String) (time : ℚ) :
    (localDequeue config s.live.node name time).1 =
      { (localDequeue config s.node name time).1 with recovery := none } := by
  unfold localDequeue Service.live
  cases queueOf s.node.queues name <;> rfl

theorem request_serves {a : Action δ} {request : Request δ} (h : a.request? = some request) :
    a.serves := by
  cases a with
  | crash => cases h
  | recoverLine => cases h
  | recoverEnd => cases h
  | recoverFill => cases h
  | _ => trivial

/-- **A handler does the same without the recovery.** -/
theorem Moves.live {config : Config} {s s' : Service δ} {a : Action δ} (h : Moves config s a s')
    (ha : a.serves) : Moves config s.live a s'.live ∧ s'.node.recovery = s.node.recovery := by
  cases h with
  | refuse hrequest error status => exact ⟨.refuse hrequest error status, rfl⟩
  | publish hname => exact ⟨.publish hname, rfl⟩
  | @empty queueName time hempty =>
      have hmove : Moves config s.live (.consume queueName time) _ := .empty hempty
      rw [localDequeue_live] at hmove
      exact ⟨hmove, (localDequeue_frame config s.node _ _).2.2.1⟩
  | @consume queueName time msg rest hqueue =>
      have hmove : Moves config s.live (.consume queueName time) _ := .consume hqueue
      rw [localDequeue_live] at hmove
      exact ⟨hmove, (localDequeue_frame config s.node _ _).2.2.1⟩
  | ack hfound => exact ⟨.ack hfound, rfl⟩
  | notFound hfound => exact ⟨.notFound hfound, rfl⟩
  | @requeue now hrecovery =>
      -- this task is started after the recovery
      have hafter := (requeueExpired_frame s.node now).2.2.1
      rw [live_eq hrecovery, live_eq (hafter.trans hrecovery)]
      exact ⟨.requeue hrecovery, hafter⟩
  | walWrite hwriters happended => exact ⟨.walWrite hwriters happended, rfl⟩
  | walFail hwriters happended => exact ⟨.walFail hwriters happended, rfl⟩
  | @walDone w rest hwriters happended =>
      have hmove : Moves config s.live .walDone _ := .walDone hwriters happended
      cases w <;> exact ⟨hmove, rfl⟩
  | crash => exact ha.elim
  | recoverLine hrecovery hentry hatEnd => exact ha.elim
  | recoverEnd hrecovery hposition => exact ha.elim
  | recoverFill hrecovery hatEnd => exact ha.elim

/-- Nor does any step look at what has been acknowledged. -/
theorem Moves.aged {config : Config} {s s' : Service δ} {a : Action δ} (h : Moves config s a s')
    (ids : List String) : Moves config (s.aged ids) a (s'.aged ids) := by
  cases h with
  | refuse hrequest error status => exact .refuse hrequest error status
  | publish hname => exact .publish hname
  | empty hempty => exact .empty hempty
  | consume hqueue => exact .consume hqueue
  | @ack queueName messageId hfound =>
      have hmove : Moves config (s.aged ids) (.ack queueName messageId) _ := .ack hfound
      simp only [Service.aged, List.append_assoc] at hmove ⊢
      exact hmove
  | notFound hfound => exact .notFound hfound
  | requeue hrecovery => exact .requeue hrecovery
  | walWrite hwriters happended => exact .walWrite hwriters happended
  | walFail hwriters happended => exact .walFail hwriters happended
  | walDone hwriters happended => exact .walDone hwriters happended
  | crash => exact .crash
  | recoverLine hrecovery hentry hatEnd => exact .recoverLine hrecovery hentry hatEnd
  | recoverEnd hrecovery hposition => exact .recoverEnd hrecovery hposition
  | recoverFill hrecovery hatEnd => exact .recoverFill hrecovery hatEnd

/-! ### The reader -/

/-- The log of a start is being read, or has been read, to its end at least. -/
structure Reading (wal : List (WalEntry δ)) (s : Service δ) : Prop where
  log : wal <+: s.node.wal
  reads : ∀ r ∈ s.node.recovery, r.Reads s.node.wal
  reached : ∀ r ∈ s.node.recovery, r.atEnd = true → wal.length ≤ r.position

theorem reading_start (wal : List (WalEntry δ)) {s : Service δ} (hs : s.node = start wal) :
    Reading wal s := by
  refine ⟨?_, ?_, ?_⟩
  · rw [hs]
    exact List.prefix_rfl
  · rw [hs]
    rintro r ⟨⟩
    exact .empty
  · rw [hs]
    rintro r ⟨⟩ hatEnd
    cases hatEnd

namespace Reading

variable {wal : List (WalEntry δ)} {config : Config} {s s' : Service δ} {a : Action δ}

theorem serve (h : Reading wal s) (ha : a.serves) (hmove : Moves config s a s') :
    Reading wal s' := by
  obtain ⟨lines, hlines⟩ := hmove.wal
  refine ⟨h.log.trans hmove.wal, ?_, ?_⟩
  · rw [(hmove.live ha).2, ← hlines]
    exact fun r hr => (h.reads r hr).append lines
  · rw [(hmove.live ha).2]
    exact h.reached

/-- What the reader does. -/
theorem step (h : Reading wal s) (hcrash : a ≠ .crash) (hmove : Moves config s a s') :
    Reading wal s' := by
  by_cases ha : a.serves
  · exact h.serve ha hmove
  · cases hmove with
    | crash => exact absurd rfl hcrash
    | @recoverLine r entry hrecovery hentry hatEnd =>
        refine ⟨h.log, ?_, ?_⟩
        · rintro r' ⟨⟩
          exact (h.reads r hrecovery).readLine hentry hatEnd
        · rintro r' ⟨⟩ hend
          cases entry <;> exact absurd (hatEnd.symm.trans hend) Bool.false_ne_true
    | @recoverEnd r hrecovery hposition =>
        refine ⟨h.log, ?_, ?_⟩
        · rintro r' ⟨⟩
          exact h.reads r hrecovery
        · rintro r' ⟨⟩ -
          exact h.log.length_le.trans hposition.ge
    | recoverFill hrecovery hatEnd => exact ⟨h.log, nofun, nofun⟩
    | refuse hrequest error status => exact absurd (request_serves hrequest) ha
    | _ => exact absurd trivial ha

/-- The lines that have been read. -/
theorem exists_take (h : Reading wal s) {r : Recovery δ} (hr : s.node.recovery = some r)
    (hatEnd : r.atEnd = true) : ∃ lines, s.node.wal.take r.position = wal ++ lines := by
  obtain ⟨lines, hlines⟩ := (List.prefix_take_iff).2 ⟨h.log, h.reached r hr hatEnd⟩
  exact ⟨lines, hlines.symm⟩

end Reading

/-! ### Putting deques together -/

/-- The places of one name are those of its deque. -/
theorem count_gather_waiting [BEq (String × Message δ)] [LawfulBEq (String × Message δ)]
    (queues : Dict String (List (Message δ))) (place : String × Message δ) :
    (Dict.gather waiting queues).count place =
      (waiting place.1 (queueOf queues place.1)).count place := by
  have hrest : place ∉ Dict.gather waiting (queues.erase place.1) := by
    intro hmem
    obtain ⟨m, hm, -⟩ := mem_gather_waiting.1 hmem
    rw [queueOf, Dict.get?_erase_self] at hm
    cases hm
  rw [(gather_waiting queues place.1).count_eq, List.count_append,
    List.count_eq_zero_of_not_mem hrest, Nat.add_zero]

/-- **The places of deques that are put together.** -/
theorem gather_waiting_append {queues queues₁ queues₂ : Dict String (List (Message δ))}
    (h : ∀ name, queueOf queues name = queueOf queues₁ name ++ queueOf queues₂ name) :
    (Dict.gather waiting queues).Perm
      (Dict.gather waiting queues₁ ++ Dict.gather waiting queues₂) := by
  classical
  refine List.perm_iff_count.2 fun place => ?_
  rw [List.count_append, count_gather_waiting, count_gather_waiting, count_gather_waiting, h,
    waiting_append, List.count_append]

/-! ### The fill -/

/-- Lines that acknowledge all their messages, and none of the log before them, leave the messages
of this log. -/
theorem unacked_append {wal lines : List (WalEntry δ)}
    (hlines : ∀ m ∈ enqueued lines, m.id ∈ acked (wal ++ lines))
    (hwal : ∀ m ∈ enqueued wal, m.id ∈ acked (wal ++ lines) → m.id ∈ acked wal) (name : String) :
    unacked (wal ++ lines) name = unacked wal name := by
  have henqueued : enqueued (wal ++ lines) = enqueued wal ++ enqueued lines :=
    List.filterMap_append
  have hacked : acked (wal ++ lines) = acked wal ++ acked lines := List.filterMap_append
  have hempty : (enqueued lines).filter
      (fun m => m.queue = name ∧ m.id ∉ acked (wal ++ lines)) = [] := by
    refine List.filter_eq_nil_iff.2 fun m hm hkeep => ?_
    exact (of_decide_eq_true hkeep).2 (hlines m hm)
  rw [unacked, henqueued, List.filter_append, hempty, List.append_nil]
  refine List.filter_congr fun m hm => ?_
  have hiff : m.id ∈ acked (wal ++ lines) ↔ m.id ∈ acked wal := by
    refine ⟨hwal m hm, fun hid => ?_⟩
    rw [hacked]
    exact List.mem_append_left _ hid
  simp only [hiff]

/-- The ids that are not from the log of the start. -/
def newIds (s : Service δ) : List String :=
  (s.answers.filterMap enqueuedBy).map Prod.snd ++ publishing s.node

/-- A fill with the messages of the log of the start, next to the messages of the handlers. -/
theorem Conserved.fill {wal : List (WalEntry δ)} {s : Service δ}
    (hids : ((enqueued wal).map Message.id).Nodup) (h : Conserved [] s.live)
    (hold : ∀ id ∈ walIds wal, id ∈ s.minted) (hnew : ∀ id ∈ newIds s, id ∉ walIds wal)
    {queues : Dict String (List (Message δ))}
    (hqueues : ∀ name, queueOf queues name = queueOf s.node.queues name ++ unacked wal name) :
    Conserved wal { s with node := { s.node with queues := queues, recovery := none } } := by
  have hopened := conserved_opened hids
  have hqueues' : ∀ name, queueOf queues name =
      queueOf s.node.queues name ++ queueOf (opened wal).node.queues name := fun name => by
    rw [hqueues, ← queueOf_recovered wal hids name]
    rfl
  have hplaces : (located { s.node with queues := queues, recovery := none }).Perm
      (located (opened wal).node ++ located s.live.node) := by
    refine ((gather_waiting_append hqueues').append_right _).trans ?_
    rw [located, located, opened, start, Dict.gather_empty, List.append_nil, ← List.append_assoc]
    exact List.perm_append_comm.append_right _
  -- the ids of the log that are not acknowledged
  have hsub : ∀ id ∈ (entered wal (opened wal)).map Prod.snd, id ∈ walIds wal := by
    intro id hid
    obtain ⟨m, hm, rfl⟩ := List.mem_map.1 (hopened.minted id (List.mem_append_left _ hid))
    exact id_mem_walIds hm
  have hsplit : entered wal s = entered wal (opened wal) ++ entered [] s.live := by
    simp [entered, opened, Service.live]
  have hentered : (entered wal s).map Prod.snd ++ publishing s.node =
      (entered wal (opened wal)).map Prod.snd ++ newIds s := by
    rw [hsplit, List.map_append, List.append_assoc]
    rfl
  refine ⟨rfl, h.keyed, fun place hplace => ?_, ?_, ?_, ?_⟩
  · rcases List.mem_append.1 (hplaces.subset hplace) with hplace | hplace
    · exact hopened.own place hplace
    · exact h.own place hplace
  · refine hentered ▸ (List.nodup_append.1 hopened.fresh).1.append h.fresh fun id hid hid' => ?_
    exact hnew id hid' (hsub id hid)
  · intro id hid
    rcases List.mem_append.1 (hentered ▸ hid) with hid | hid
    · exact hold id (hsub id hid)
    · exact h.minted id hid
  · obtain ⟨out, hout, hconserved⟩ := h.conserved
    obtain ⟨none, hnone, hconserved'⟩ := hopened.conserved
    obtain rfl := List.map_eq_nil_iff.1 hnone
    refine ⟨out, hout, ?_⟩
    rw [List.append_nil] at hconserved'
    refine ((hplaces.map spot).append_right out).trans ?_
    rw [List.map_append, List.append_assoc]
    exact (hconserved'.append hconserved).trans (List.Perm.of_eq hsplit.symm)

/-! ### Runs from a start -/

/-- **The node between its start and its fill, and after it.** -/
structure RacingInv (wal : List (WalEntry δ)) (s : Service δ) : Prop where
  reading : Reading wal s
  logged : LogInv (s.aged (acked wal))
  distinct : s.minted.Nodup
  old : ∀ id ∈ walIds wal, id ∈ s.minted
  new : ∀ id ∈ newIds s, id ∉ walIds wal
  /-- until the fill there is nothing but the messages of the handlers -/
  live : s.node.recovery.isSome = true → Conserved [] s.live
  /-- the reader has found their ids acknowledged -/
  settled : ∀ r ∈ s.node.recovery, r.atEnd = true →
    ∀ m ∈ enqueued ((s.node.wal.take r.position).drop wal.length),
      m.id ∈ acked (s.node.wal.take r.position)
  filled : s.node.recovery = none → Conserved wal s

theorem racingInv_restarted {wal : List (WalEntry δ)}
    (hids : ((enqueued wal).map Message.id).Nodup) : RacingInv wal (restarted wal) where
  reading := reading_start wal rfl
  logged := by
    have hlogged : loggedMessages (start wal) = enqueued wal := List.append_nil _
    refine ⟨⟨fun h => (by cases h), fun id hid => List.mem_append_left _ hid,
      fun _ _ h => (by cases h)⟩, fun m hm => ?_, fun _ => ?_⟩
    · rw [Service.aged, restarted, hlogged] at hm
      exact id_mem_walIds hm
    · rw [Service.aged, restarted, hlogged]
      exact hids
  distinct := List.nodup_dedup _
  old := fun _ hid => hid
  new := fun _ h => (by cases h)
  live := fun _ => by
    have hempty : Conserved [] (opened ([] : List (WalEntry δ))) := conserved_opened List.nodup_nil
    exact ⟨rfl, hempty.keyed, hempty.own, hempty.fresh, fun _ h => (by cases h),
      hempty.conserved⟩
  settled := by
    rintro r ⟨⟩ hatEnd
    cases hatEnd
  filled := fun h => (by cases h)

/-- Ids are new when they are given to messages. -/
theorem newIds_of_moves {config : Config} {wal : List (WalEntry δ)} {s s' : Service δ}
    {a : Action δ} (hnew : ∀ id ∈ newIds s, id ∉ walIds wal)
    (hold : ∀ id ∈ walIds wal, id ∈ s.minted) (hok : Serving config s a)
    (hmove : Moves config s a s') : ∀ id ∈ newIds s', id ∉ walIds wal := by
  -- the answers that are no enqueued messages do not matter
  have hanswer : ∀ (t : Service δ) (request : Request δ) (response : Response δ),
      enqueuedBy (request, response) = none → newIds (t.answer request response) = newIds t := by
    intro t request response hnone
    rw [newIds, newIds, Service.answer, List.filterMap_append, List.filterMap_cons_none hnone,
      List.filterMap_nil, List.append_nil]
  cases hmove with
  | refuse hrequest error status =>
      rw [hanswer _ _ _ (by cases ‹Request δ› <;> rfl)]
      exact hnew
  | @publish queueName data timeNs time hname =>
      intro id hid
      rw [newIds, publishing, List.filterMap_append, List.map_append, ← List.append_assoc] at hid
      rcases List.mem_append.1 hid with hid | hid
      · exact hnew id hid
      · obtain rfl := List.mem_singleton.1 hid
        exact fun hmem => hok (hold _ hmem)
  | @empty queueName time hempty =>
      rw [hanswer _ _ _ rfl, newIds, publishing, (localDequeue_frame config s.node _ _).1]
      exact hnew
  | @consume queueName time msg rest hqueue =>
      rw [hanswer _ _ _ rfl, newIds, publishing, (localDequeue_frame config s.node _ _).1]
      exact hnew
  | ack hfound =>
      rw [newIds, publishing, messages_ack]
      exact hnew
  | notFound hfound =>
      rw [hanswer _ _ _ rfl]
      exact hnew
  | @requeue now hrecovery =>
      rw [newIds, publishing, (requeueExpired_frame s.node now).1]
      exact hnew
  | walWrite hwriters happended => exact hnew
  | walFail hwriters happended => exact hok.elim
  | @walDone writer rest hwriters happended =>
      cases writer with
      | publish msg =>
          -- its id goes from the one list to the other
          rw [newIds, publishing, hwriters] at hnew
          rw [newIds, Service.answer, List.filterMap_append, List.map_append, List.append_assoc]
          exact hnew
      | ack queueName messageId =>
          rw [newIds, publishing, hwriters] at hnew
          rw [hanswer _ _ _ rfl]
          exact hnew
  | crash => exact hok.elim
  | recoverLine hrecovery hentry hatEnd => exact hnew
  | recoverEnd hrecovery hposition => exact hnew
  | recoverFill hrecovery hatEnd => exact hnew

namespace RacingInv

variable {wal : List (WalEntry δ)} {config : Config} {s s' : Service δ} {a : Action δ}

/-- A handler takes a step. -/
theorem serve (h : RacingInv wal s) (ha : a.serves) (hok : Serving config s a)
    (hmove : Moves config s a s') : RacingInv wal s' := by
  obtain ⟨hlive, hrecovery⟩ := hmove.live ha
  obtain ⟨lines, hlines⟩ := hmove.wal
  refine ⟨h.reading.serve ha hmove, ?_, ?_, ?_, ?_, ?_, ?_, ?_⟩
  · exact h.logged.step (hmove.aged _)
  · exact hmove.minted_nodup hok.logged h.distinct
  · exact fun id hid => hmove.minted id (h.old id hid)
  · exact newIds_of_moves h.new h.old hok hmove
  · rw [hrecovery]
    exact fun hsome => (h.live hsome).step hok.freshIds hlive
  · rw [hrecovery, ← hlines]
    intro r hr
    rw [List.take_append_of_le_length (h.reading.reads r hr).position_le]
    exact h.settled r hr
  · rw [hrecovery]
    intro hnone
    exact (h.filled hnone).step hok.freshIds hmove

/-- An id that the reader has found acknowledged was not published by a handler. -/
theorem acked_old (h : RacingInv wal s) (hsome : s.node.recovery.isSome = true) {m : Message δ}
    (hm : m ∈ enqueued wal) (hid : m.id ∈ acked s.node.wal) : m.id ∈ acked wal := by
  refine (List.mem_append.1 (h.logged.acks.accepted _ hid)).resolve_right fun haccepted => ?_
  obtain ⟨out, hout, hperm⟩ := (h.live hsome).conserved
  have hout' : m.id ∈ out.map Prod.snd := hout ▸ haccepted
  obtain ⟨p, hp, hpid⟩ := List.mem_map.1 hout'
  have hnew : m.id ∈ newIds s := by
    refine List.mem_append_left _ (List.mem_map.2 ⟨p, ?_, hpid⟩)
    exact hperm.subset (List.mem_append_right _ hp)
  exact h.new _ hnew (id_mem_walIds hm)

/-- The fill of a settled recovery. -/
theorem fill (h : RacingInv wal s) (hids : ((enqueued wal).map Message.id).Nodup)
    {r : Recovery δ} (hrecovery : s.node.recovery = some r) (hatEnd : r.atEnd = true) :
    Conserved wal { s with
      node := { s.node with queues := fillQueues r s.node.queues, recovery := none } } := by
  have hsome : s.node.recovery.isSome = true := by rw [hrecovery]; rfl
  obtain ⟨lines, hlines⟩ := h.reading.exists_take hrecovery hatEnd
  have hsettled := h.settled r hrecovery hatEnd
  rw [hlines, List.drop_left] at hsettled
  have hsub : ∀ id ∈ acked (wal ++ lines), id ∈ acked s.node.wal := by
    intro id hid
    rw [← hlines] at hid
    exact mem_acked.2 (List.mem_of_mem_take (mem_acked.1 hid))
  have hread : ((enqueued (wal ++ lines)).map Message.id).Nodup := by
    refine (h.logged.nodup h.distinct).sublist (List.Sublist.map _ ?_)
    rw [← hlines]
    exact ((List.take_sublist _ _).filterMap _).trans (List.sublist_append_left _ _)
  refine (h.live hsome).fill hids h.old h.new fun name => ?_
  rw [(h.reading.reads r hrecovery).fillQueues_eq, hlines,
    queueOf_fillQueues_readLines _ hread,
    unacked_append hsettled fun m hm hid => h.acked_old hsome hm (hsub _ hid)]

/-- **Every step of a settled recovery.** -/
theorem step (h : RacingInv wal s) (hids : ((enqueued wal).map Message.id).Nodup)
    (hok : Serving config s a) (hsettled : Settled wal s a) (hmove : Moves config s a s') :
    RacingInv wal s' := by
  by_cases ha : a.serves
  · exact h.serve ha hok hmove
  · have hcrash : a ≠ .crash := by
      rintro rfl
      exact hok
    have hreading := h.reading.step hcrash hmove
    have hlogged := h.logged.step (hmove.aged _)
    have hdistinct := hmove.minted_nodup hok.logged h.distinct
    have hnew := newIds_of_moves h.new h.old hok hmove
    cases hmove with
    | crash => exact hok.elim
    | @recoverLine r entry hrecovery hentry hatEnd =>
        refine ⟨hreading, hlogged, hdistinct, h.old, hnew, fun _ => h.live (hrecovery ▸ rfl), ?_,
          nofun⟩
        rintro r' ⟨⟩ hend
        cases entry <;> exact absurd (hatEnd.symm.trans hend) Bool.false_ne_true
    | @recoverEnd r hrecovery hposition =>
        refine ⟨hreading, hlogged, hdistinct, h.old, hnew, fun _ => h.live (hrecovery ▸ rfl), ?_,
          nofun⟩
        rintro r' ⟨⟩ -
        -- the whole file has been read
        rw [hposition, List.take_length]
        exact hsettled
    | recoverFill hrecovery hatEnd =>
        exact ⟨hreading, hlogged, hdistinct, h.old, hnew, nofun, nofun,
          fun _ => h.fill hids hrecovery hatEnd⟩
    | refuse hrequest error status => exact absurd (request_serves hrequest) ha
    | _ => exact absurd trivial ha

end RacingInv

theorem racingInv_run {config : Config} {wal : List (WalEntry δ)} {s : Service δ}
    (hids : ((enqueued wal).map Message.id).Nodup)
    (h : Run (step config) (fun s a => Serving config s a ∧ Settled wal s a) (restarted wal) s) :
    RacingInv wal s :=
  h.invariant (fun _ _ _ hI hok hstep => hI.step hids hok.1 hok.2 (moves_of_step hstep))
    (racingInv_restarted hids)

/-- The messages after the fill. -/
theorem RacingInv.onceEach {wal : List (WalEntry δ)} {s : Service δ} (h : RacingInv wal s)
    (hrecovery : s.node.recovery = none) : OnceEach wal s := by
  have hconserved := h.filled hrecovery
  refine ⟨fun name id hentered hid => hconserved.inOnePlace hentered hid, ?_⟩
  rintro id (hid | hid)
  · -- what is in memory has been enqueued, by this start or without an ack
    rintro place hplace rfl
    obtain ⟨out, -, hperm⟩ := hconserved.conserved
    have hspot : spot place ∈ entered wal s :=
      hperm.subset (List.mem_append_left _ (List.mem_map_of_mem hplace))
    rcases List.mem_append.1 hspot with hspot | hspot
    · obtain ⟨m, hm, heq⟩ := List.mem_map.1 hspot
      have hm' : m.id = place.2.id := congrArg Prod.snd heq
      exact of_decide_eq_true (List.mem_filter.1 hm).2 (hm' ▸ hid)
    · exact h.new _ (List.mem_append_left _ (List.mem_map_of_mem hspot))
        (mem_walIds_of_acked hid)
  · exact hconserved.not_located hid

/-- **Settled recoveries keep every message once.**  A node starts with any log, serves requests
while it reads it, and whenever its reader sees the end of the file, the messages published since
the start whose lines the reader finds are acknowledged in the file as well.  Then, after the fill,
every enqueued message is in one place until it is acknowledged, and no acknowledged one is in
memory. -/
theorem racing_once {config : Config} {wal : List (WalEntry δ)} {s : Service δ}
    (hids : ((enqueued wal).map Message.id).Nodup)
    (h : Run (step config) (fun s a => Serving config s a ∧ Settled wal s a) (restarted wal) s)
    (hrecovery : s.node.recovery = none) : OnceEach wal s :=
  (racingInv_run hids h).onceEach hrecovery

/-- A message that was published before the start. -/
def oldMessage : Message ℕ := ⟨"worker-1", "jobs", 7, 0, none⟩

/-- A message is published, taken and acknowledged while the log is read, and another one is
published when the reader has seen the end of the file. -/
def settledRace : List (Action ℕ) :=
  [.recoverLine, .publish "jobs" (some 8) 2 1, .walWrite, .walDone, .consume "jobs" 2,
    .ack "jobs" "worker-2", .walWrite, .recoverLine, .recoverLine, .recoverEnd, .walDone,
    .publish "jobs" (some 9) 3 3, .walWrite, .recoverFill, .walDone]

theorem racing_once_settledRace :
    ∃ s : Service ℕ, Run (step worker)
        (fun s a => Serving worker s a ∧ Settled [.enqueue oldMessage] s a)
        (restarted [.enqueue oldMessage]) s ∧
      s.accepted = ["worker-2"] ∧ OnceEach [.enqueue oldMessage] s := by
  obtain ⟨s, hs, hrecovery, haccepted⟩ := Run.exists_of_exec (step worker)
    (fun s a => Serving worker s a ∧ Settled [.enqueue oldMessage] s a)
    (restarted [.enqueue oldMessage]) settledRace
    (fun s => s.node.recovery.isNone = true ∧ s.accepted = ["worker-2"]) (by decide +kernel)
  have hids : ((enqueued [.enqueue oldMessage]).map Message.id).Nodup := List.nodup_singleton _
  exact ⟨s, hs, haccepted, racing_once hids hs (Option.isNone_iff_eq_none.1 hrecovery)⟩

/-- A message is published while the log is read, and the reader reaches its line. -/
def unsettledRace : List (Action ℕ) :=
  [.recoverLine, .publish "jobs" (some 8) 2 1, .walWrite, .walDone, .recoverLine, .recoverEnd,
    .recoverFill]

/-- This message is in its deque twice. -/
theorem racing_twice : ¬ ∀ (wal : List (WalEntry ℕ)) (s : Service ℕ),
    ((enqueued wal).map Message.id).Nodup →
    Run (step worker) (Serving worker) (restarted wal) s → s.node.recovery = none →
    OnceEach wal s := by
  intro h
  obtain ⟨s, hs, hrecovery, hentered, haccepted, hplaces⟩ := Run.exists_of_exec (step worker)
    (Serving worker) (restarted [.enqueue oldMessage]) unsettledRace
    (fun s => s.node.recovery.isNone = true ∧
      ("jobs", "worker-2") ∈ entered [.enqueue oldMessage] s ∧ s.accepted = [] ∧
      ((located s.node).filter fun place => place.2.id = "worker-2").length = 2)
    (by decide +kernel)
  obtain ⟨msg, hmsg, -⟩ := (h [.enqueue oldMessage] s (List.nodup_singleton _) hs
    (Option.isNone_iff_eq_none.1 hrecovery)).1 "jobs" "worker-2" hentered (haccepted ▸ nofun)
  rw [hmsg] at hplaces
  cases hplaces

end QueueNode
