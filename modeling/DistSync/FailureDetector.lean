/-
**Which peers are alive: the rounds of health checks.**

A node asks each of its peers for `/health`, all of them at once, waits until every one has answered
or failed, sleeps, and starts the next round.  Meanwhile the list of peers can be replaced, the
detector can be stopped and started again, and the answers of a round come in any order.

The status of a peer is what its last answer says, and nothing else changes it; a peer that has not
answered yet counts as alive.  A round is not over before all peers of its list have answered, which
is why a node that is down is noticed after one full round, whatever happens in it, and a node that
is up is not suspected.

Main definitions:

* `FailureDetection.FailureDetector` — the detector with its loop;
* `FailureDetection.step` — **one step**, between two awaits;
* `FailureDetection.lastSaid` — the last answer of a node in a sequence of events.

Main results:

* `FailureDetection.statusIsLastAnswer` — **the status of a peer is its last answer**;
* `FailureDetection.noticed` — **after a full round the status is right**.
-/

import DistSync.Dict
import DistSync.QueueRouting
import DistSync.RunRules

set_option relaxedAutoImplicit false
set_option autoImplicit false

namespace FailureDetection

open Runs
open QueueNode (PeerInfo)

/-! ### The detector -/

/-- Where the coroutine `_loop` is: at the beginning, in `asyncio.gather` with the checks that are
not finished, or asleep. -/
inductive Loop
  | created
  | gathering (pending : List PeerInfo)
  | sleeping
deriving DecidableEq

structure FailureDetector where
  peers : List PeerInfo
  status : Dict String Bool
  running : Bool
  task : Option Loop

namespace FailureDetector

/-- `FailureDetector.__init__`. -/
def init (peers : List PeerInfo) : FailureDetector where
  peers := peers
  status := peers.foldl (fun status peer => status.set peer.nodeId true) ∅
  running := false
  task := none

/-- `set_peers`. -/
def setPeers (d : FailureDetector) (peers : List PeerInfo) : FailureDetector :=
  { d with
    peers := peers
    status := peers.foldl (fun status peer => status.setdefault peer.nodeId true) d.status }

/-- `start`. -/
def start (d : FailureDetector) : FailureDetector :=
  if d.running = true then d else { d with running := true, task := some .created }

/-- `stop`, up to the point where the cancelled coroutine is gone.  The checks are cancelled with
it.  The session is closed later, and checks of a new round then raise. -/
def stop (d : FailureDetector) : FailureDetector :=
  { d with running := false, task := none }

/-- `is_alive`. -/
def isAlive (d : FailureDetector) (peerId : String) : Bool := (d.status.get? peerId).getD false

/-- The end of `_check_peer`, with the status of the response, or none if there was an exception. -/
def checkPeer (d : FailureDetector) (peer : PeerInfo) (response : Option ℕ) : FailureDetector :=
  { d with status := d.status.set peer.nodeId (decide (response = some 200)) }

/-- `BaseNode.handle_peers`: id, address and status of the peers of the node. -/
def handlePeers (d : FailureDetector) (peers : List PeerInfo) :
    List (String × String × Option Bool) :=
  peers.map fun peer => (peer.nodeId, peer.url, d.status.get? peer.nodeId)

end FailureDetector

open FailureDetector

/-- What can happen. -/
inductive Event
  | setPeers (peers : List PeerInfo)
  | start
  | stop
  /-- The loop begins a round, or ends. -/
  | round
  /-- A check of the round is over: it gets a response, or raises for whatever reason. -/
  | answer (peer : PeerInfo) (response : Option ℕ)
  /-- All checks are over, and the loop goes to sleep. -/
  | sleep
deriving DecidableEq

/-- **One step.** -/
def step (d : FailureDetector) : Event → Option FailureDetector
  | .setPeers peers => some (d.setPeers peers)
  | .start => some d.start
  | .stop => some d.stop
  | .round =>
      if d.task = some .created ∨ d.task = some .sleeping then
        some { d with task := if d.running = true then some (.gathering d.peers) else none }
      else none
  | .answer peer response =>
      match d.task with
      | some (.gathering pending) =>
          if peer ∈ pending then
            some { d.checkPeer peer response with task := some (.gathering (pending.erase peer)) }
          else none
      | _ => none
  | .sleep => if d.task = some (.gathering []) then some { d with task := some .sleeping } else none

/-! ### The status of a peer -/

/-- What an event says about a node. -/
def Event.said (peerId : String) : Event → Option Bool
  | .answer peer response =>
      if peer.nodeId = peerId then some (decide (response = some 200)) else none
  | _ => none

/-- The event puts a node on the list. -/
def Event.lists (peerId : String) : Event → Bool
  | .setPeers peers => decide (peerId ∈ peers.map PeerInfo.nodeId)
  | _ => false

/-- **The last answer of a node.** -/
def lastSaid (peerId : String) (events : List Event) : Option Bool :=
  (events.filterMap (Event.said peerId)).getLast?

variable {d d' : FailureDetector} {peerId : String} {peers : List PeerInfo}

theorem get?_foldl_setdefault (peers : List PeerInfo) (status : Dict String Bool) :
    (peers.foldl (fun status peer => status.setdefault peer.nodeId true) status).get? peerId =
      (status.get? peerId).or
        (if peerId ∈ peers.map PeerInfo.nodeId then some true else none) := by
  induction peers generalizing status with
  | nil => simp
  | cons peer peers ih =>
      rw [List.foldl_cons, ih, Dict.get?_setdefault]
      by_cases hid : peerId = peer.nodeId
      · subst hid
        cases status.get? peer.nodeId <;> simp
      · simp [hid]

theorem get?_foldl_set (peers : List PeerInfo) (status : Dict String Bool) :
    (peers.foldl (fun status peer => status.set peer.nodeId true) status).get? peerId =
      if peerId ∈ peers.map PeerInfo.nodeId then some true else status.get? peerId := by
  induction peers generalizing status with
  | nil => simp
  | cons peer peers ih =>
      rw [List.foldl_cons, ih, Dict.get?_set]
      by_cases hid : peerId = peer.nodeId <;> simp [hid]

theorem step_answer {peer : PeerInfo} {response : Option ℕ}
    (h : step d (.answer peer response) = some d') :
    ∃ pending, d.task = some (.gathering pending) ∧ peer ∈ pending ∧
      d' = { d.checkPeer peer response with task := some (.gathering (pending.erase peer)) } := by
  simp only [step] at h
  split at h
  · next pending htask =>
      split at h
      · next hmem => exact ⟨pending, htask, hmem, (Option.some.inj h).symm⟩
      · cases h
  · cases h

/-- What one step does to the status of a node. -/
theorem get?_status_step {e : Event} (h : step d e = some d') :
    d'.status.get? peerId = (e.said peerId).or
      ((d.status.get? peerId).or (if e.lists peerId = true then some true else none)) := by
  have hsame : d'.status = d.status → e.said peerId = none → e.lists peerId = false →
      d'.status.get? peerId = (e.said peerId).or
        ((d.status.get? peerId).or (if e.lists peerId = true then some true else none)) := by
    intro hstatus hsaid hlists
    rw [hstatus, hsaid, hlists]
    simp
  cases e with
  | setPeers peers =>
      obtain rfl : d.setPeers peers = d' := Option.some.inj h
      simp only [setPeers, get?_foldl_setdefault, Event.said, Event.lists, Option.none_or,
        decide_eq_true_iff]
  | start =>
      obtain rfl : d.start = d' := Option.some.inj h
      refine hsame ?_ rfl rfl
      rw [start]
      split <;> rfl
  | stop =>
      obtain rfl : d.stop = d' := Option.some.inj h
      exact hsame rfl rfl rfl
  | round =>
      simp only [step] at h
      split at h
      · obtain rfl := Option.some.inj h
        exact hsame rfl rfl rfl
      · cases h
  | answer peer response =>
      obtain ⟨pending, -, -, rfl⟩ := step_answer h
      simp only [checkPeer, Dict.get?_set, Event.said, Event.lists]
      by_cases hid : peerId = peer.nodeId
      · simp [hid]
      · simp [hid, Ne.symm hid]
  | sleep =>
      simp only [step] at h
      split at h
      · obtain rfl := Option.some.inj h
        exact hsame rfl rfl rfl
      · cases h

theorem lastSaid_cons (e : Event) (events : List Event) :
    lastSaid peerId (e :: events) = (lastSaid peerId events).or (e.said peerId) := by
  rw [lastSaid, lastSaid, List.filterMap_cons]
  cases e.said peerId with
  | none => rw [Option.or_none]
  | some said => simp [List.getLast?_cons]

/-- What a run does to the status of a node. -/
theorem get?_status_exec {events : List Event} (h : exec step anyAction d events = some d') :
    d'.status.get? peerId = (lastSaid peerId events).or ((d.status.get? peerId).or
      (if events.any (Event.lists peerId) = true then some true else none)) := by
  induction events generalizing d with
  | nil =>
      obtain rfl : d = d' := by simpa [exec] using h
      simp [lastSaid]
  | cons e events ih =>
      obtain ⟨-, d₁, hstep, hexec⟩ := Run.exec_cons.1 h
      rw [ih hexec, get?_status_step hstep, lastSaid_cons, List.any_cons]
      cases lastSaid peerId events <;> cases e.said peerId <;> cases d.status.get? peerId <;>
        cases e.lists peerId <;> simp

/-- **The status of a peer is its last answer**: a node that has answered counts as alive if and
only if its last answer was 200, a listed node that has not answered counts as alive, and any other
node has no status.  So `/admin/peers` has a status for every peer of the node. -/
theorem statusIsLastAnswer {events : List Event}
    (h : exec step anyAction (init peers) events = some d) :
    (∀ peerId, d.status.get? peerId = (lastSaid peerId events).or
      (if peerId ∈ peers.map PeerInfo.nodeId ∨ events.any (Event.lists peerId) = true then some true
      else none)) ∧
    d.handlePeers peers = peers.map fun peer =>
      (peer.nodeId, peer.url, some ((lastSaid peer.nodeId events).getD true)) := by
  have hstatus : ∀ peerId, d.status.get? peerId = (lastSaid peerId events).or
      (if peerId ∈ peers.map PeerInfo.nodeId ∨ events.any (Event.lists peerId) = true then some true
      else none) := by
    intro peerId
    rw [get?_status_exec h, init, get?_foldl_set, Dict.get?_empty]
    by_cases hmem : peerId ∈ peers.map PeerInfo.nodeId <;> simp [hmem]
  refine ⟨hstatus, List.map_congr_left fun peer hpeer => ?_⟩
  rw [hstatus, if_pos (.inl (List.mem_map_of_mem hpeer))]
  cases lastSaid peer.nodeId events <;> rfl

def upPeer : PeerInfo := ⟨"node-2", "http://node-2:8000"⟩

def downPeer : PeerInfo := ⟨"node-3", "http://node-3:8000"⟩

/-- A round in which both peers answer, in the other order. -/
def firstRound : List Event :=
  [.start, .round, .answer downPeer (some 200), .answer upPeer (some 200), .sleep]

/-- A round in which the list is replaced, and one of the two is down. -/
def secondRound : List Event :=
  [.answer upPeer (some 200), .setPeers [upPeer], .start, .answer downPeer none, .sleep]

theorem statusIsLastAnswer_down : ∃ d,
    exec step anyAction (init [upPeer, downPeer]) (firstRound ++ .round :: secondRound) = some d ∧
      d.handlePeers [upPeer, downPeer] =
        [("node-2", "http://node-2:8000", some true),
          ("node-3", "http://node-3:8000", some false)] := by
  have hexec : (exec step anyAction (init [upPeer, downPeer])
      (firstRound ++ .round :: secondRound)).isSome = true := by decide
  obtain ⟨d, hd⟩ := Option.isSome_iff_exists.1 hexec
  exact ⟨d, hd, (statusIsLastAnswer hd).2⟩

/-! ### Rounds -/

/-- The loop is there as long as the detector runs, so that `start` never loses one. -/
theorem isSome_task_step {e : Event} (hinv : d.task.isSome = d.running) (h : step d e = some d') :
    d'.task.isSome = d'.running := by
  cases e with
  | setPeers peers =>
      obtain rfl : d.setPeers peers = d' := Option.some.inj h
      exact hinv
  | start =>
      obtain rfl : d.start = d' := Option.some.inj h
      rw [start]
      split
      · exact hinv
      · rfl
  | stop =>
      obtain rfl : d.stop = d' := Option.some.inj h
      rfl
  | round =>
      simp only [step] at h
      split at h
      · obtain rfl := Option.some.inj h
        cases hrunning : d.running <;> simp
      · cases h
  | answer peer response =>
      obtain ⟨pending, htask, -, rfl⟩ := step_answer h
      rw [htask] at hinv
      exact hinv
  | sleep =>
      simp only [step] at h
      split at h
      · next htask =>
          obtain rfl := Option.some.inj h
          rw [htask] at hinv
          exact hinv
      · cases h

theorem isSome_task_exec {events : List Event} (hinv : d.task.isSome = d.running)
    (h : exec step anyAction d events = some d') : d'.task.isSome = d'.running :=
  (Run.of_exec events h).invariant (I := fun d => d.task.isSome = d.running)
    (fun _ _ _ hd _ hstep => isSome_task_step hd hstep) hinv

/-- A check of a round stays there until it is over. -/
theorem pending_step {e : Event} {peer : PeerInfo} {pending : List PeerInfo}
    (hinv : d.task.isSome = d.running) (htask : d.task = some (.gathering pending))
    (hpeer : peer ∈ pending) (hstop : e ≠ .stop) (hanswer : ∀ response, e ≠ .answer peer response)
    (h : step d e = some d') :
    ∃ pending', d'.task = some (.gathering pending') ∧ peer ∈ pending' := by
  cases e with
  | setPeers peers =>
      obtain rfl : d.setPeers peers = d' := Option.some.inj h
      exact ⟨pending, htask, hpeer⟩
  | start =>
      obtain rfl : d.start = d' := Option.some.inj h
      have hrunning : d.running = true := by rw [← hinv, htask, Option.isSome_some]
      rw [start, if_pos hrunning]
      exact ⟨pending, htask, hpeer⟩
  | stop => exact absurd rfl hstop
  | round => simp [step, htask] at h
  | answer peer' response =>
      obtain ⟨pending', htask', -, rfl⟩ := step_answer h
      obtain rfl : pending = pending' := by simpa [htask] using htask'
      have hne : peer ≠ peer' := fun heq => hanswer response (by rw [heq])
      exact ⟨_, rfl, (List.mem_erase_of_ne hne).2 hpeer⟩
  | sleep =>
      have hnil : pending ≠ [] := List.ne_nil_of_mem hpeer
      simp [step, htask, hnil] at h

/-- **A round is not over before all its peers have answered.** -/
theorem exists_answer {events : List Event} {peer : PeerInfo} {pending : List PeerInfo}
    (hinv : d.task.isSome = d.running) (htask : d.task = some (.gathering pending))
    (hpeer : peer ∈ pending) (hstop : Event.stop ∉ events)
    (h : exec step anyAction d events = some d')
    (hover : ∀ pending', d'.task ≠ some (.gathering pending')) :
    ∃ response, Event.answer peer response ∈ events := by
  induction events generalizing d pending with
  | nil =>
      obtain rfl : d = d' := by simpa [exec] using h
      exact absurd htask (hover pending)
  | cons e events ih =>
      obtain ⟨-, d₁, hstep, hexec⟩ := Run.exec_cons.1 h
      by_cases hanswer : ∃ response, e = .answer peer response
      · obtain ⟨response, rfl⟩ := hanswer
        exact ⟨response, List.mem_cons_self⟩
      · obtain ⟨pending', htask', hpeer'⟩ := pending_step hinv htask hpeer
          (fun heq => hstop (heq ▸ List.mem_cons_self))
          (fun response heq => hanswer ⟨response, heq⟩) hstep
        obtain ⟨response, hmem⟩ := ih (isSome_task_step hinv hstep) htask' hpeer'
          (fun hmem => hstop (List.mem_cons_of_mem _ hmem)) hexec
        exact ⟨response, List.mem_cons_of_mem _ hmem⟩

/-- A node that has answered, and always the same. -/
theorem lastSaid_of_all {events : List Event} {said : Bool}
    (hsome : ∃ e ∈ events, (e.said peerId).isSome = true)
    (hall : ∀ e ∈ events, ∀ b ∈ e.said peerId, b = said) : lastSaid peerId events = some said := by
  obtain ⟨e, he, hsaid⟩ := hsome
  obtain ⟨b, hb⟩ := Option.isSome_iff_exists.1 hsaid
  have hne : events.filterMap (Event.said peerId) ≠ [] :=
    List.ne_nil_of_mem (List.mem_filterMap.2 ⟨e, he, hb⟩)
  rw [lastSaid, List.getLast?_eq_getLast_of_ne_nil hne]
  obtain ⟨e', he', hlast⟩ := List.mem_filterMap.1 (List.getLast_mem hne)
  rw [hall e' he' _ hlast]

/-- **After a full round the status is right.**  A peer is on the list when a round begins; the
detector is not stopped before the next round; and from the first round on, every answer of this
node says the same, whether it is down or up.  Then, from the second round on, this is its
status. -/
theorem noticed {before during after : List Event} {peer : PeerInfo} {up : Bool}
    (hbefore : exec step anyAction (init peers) before = some d) (hpeer : peer ∈ d.peers)
    (hstop : Event.stop ∉ during)
    (h : exec step anyAction d (.round :: (during ++ .round :: after)) = some d')
    (hup : ∀ peer' response, Event.answer peer' response ∈ during ++ after →
      peer'.nodeId = peer.nodeId → decide (response = some 200) = up) :
    d'.isAlive peer.nodeId = up := by
  have hinv : d.task.isSome = d.running := isSome_task_exec rfl hbefore
  obtain ⟨-, d₁, hround, hexec⟩ := Run.exec_cons.1 h
  obtain ⟨d₂, hduring, hexec₂⟩ := (Run.exec_append during).1 hexec
  obtain ⟨-, d₃, hround₂, -⟩ := Run.exec_cons.1 hexec₂
  have hinv₁ : d₁.task.isSome = d₁.running := isSome_task_step hinv hround
  -- the loop of the next round is no longer in the first one
  have hover : ∀ pending, d₂.task ≠ some (.gathering pending) := by
    intro pending htask
    simp [step, htask] at hround₂
  have hgathering : d₁.task = some (.gathering d.peers) := by
    simp only [step] at hround
    split at hround
    · next htask =>
        obtain rfl := Option.some.inj hround
        have hrunning : d.running = true := by
          rw [← hinv]
          rcases htask with htask | htask <;> rw [htask] <;> rfl
        exact if_pos hrunning
    · cases hround
  obtain ⟨response, hanswer⟩ := exists_answer hinv₁ hgathering hpeer hstop hduring hover
  have hlast : lastSaid peer.nodeId (.round :: (during ++ .round :: after)) = some up := by
    refine lastSaid_of_all ⟨_, List.mem_cons_of_mem _ (List.mem_append_left _ hanswer), ?_⟩ ?_
    · simp [Event.said]
    · intro e he b hb
      cases e with
      | answer peer' response' =>
          rw [Event.said, Option.mem_def, Option.ite_none_right_eq_some] at hb
          rw [← Option.some.inj hb.2]
          refine hup peer' response' ?_ hb.1
          simpa using he
      | _ => cases hb
  rw [isAlive, get?_status_exec h, hlast, Option.some_or, Option.getD_some]

theorem noticed_down : ∃ d,
    exec step anyAction (init [upPeer, downPeer])
      (firstRound ++ .round :: (secondRound ++ .round :: [.stop, .start])) = some d ∧
      d.isAlive "node-3" = false := by
  have hexec : (exec step anyAction (init [upPeer, downPeer])
      (firstRound ++ .round :: (secondRound ++ .round :: [.stop, .start]))).isSome = true := by
    decide
  have hfirst : ((exec step anyAction (init [upPeer, downPeer]) firstRound).any fun d =>
      decide (downPeer ∈ d.peers)) = true := by decide
  obtain ⟨d, hd⟩ := Option.isSome_iff_exists.1 hexec
  obtain ⟨d₁, hd₁, hpeer⟩ := (Option.any_eq_true _ _).1 hfirst
  obtain ⟨d₂, hd₂, hrest⟩ := (Run.exec_append firstRound).1 hd
  obtain rfl : d₁ = d₂ := Option.some.inj (hd₁.symm.trans hd₂)
  refine ⟨d, hd, noticed hd₁ (of_decide_eq_true hpeer) (by decide) hrest ?_⟩
  intro peer' response hmem hid
  simp only [secondRound, List.cons_append, List.nil_append, List.mem_cons, Event.answer.injEq,
    reduceCtorEq, List.not_mem_nil, false_or, or_false] at hmem
  rcases hmem with ⟨rfl, rfl⟩ | ⟨rfl, rfl⟩
  · exact absurd hid (by decide)
  · rfl

end FailureDetection
