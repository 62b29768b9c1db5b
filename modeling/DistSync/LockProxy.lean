/-
**One call, one request?**

A client may send its acquire to any node.  A node that does not lead passes it on with
`_proxy_to_leader`, and the node that it reaches may pass it on again.  The id of the request is
made by the leader that takes the call, in `handle_acquire`.  When `send_json` does not return an
answer below 400, because the message was refused or lost, the leader was too slow for the timeout
of the bus, its answer was lost or was an error, the proxy sends the call once more; and the leader
that takes this second message makes a second id.

One call is modelled, with all messages and handlers that it leads to at any number of nodes.  Which
nodes lead, and whom they take for the leader, may change at any time.

Main definitions:

* `LockManager.Forwarding` — the handlers of a call, and the commands that they have appended;
* `LockManager.Forwarding.step` — the moves of the handlers;
* `LockManager.Forwarding.RetriesClean` — a retry is sent when nothing is left of the attempt
  before.

Main results:

* `LockManager.Forwarding.moves_of_step` — the inversion of `LockManager.Forwarding.step`;
* `LockManager.Forwarding.oneCommand` — **with such retries a call appends one command at most**;
  `LockManager.Forwarding.oneCommand_fails` — a retry after a timeout gives two.
-/

import DistSync.LockFairness
import DistSync.RunRules

set_option relaxedAutoImplicit false
set_option autoImplicit false

namespace LockManager

open Runs

variable {ν : Type*}

/-! ### Handlers -/

/-- Where a handler of the call is. -/
inductive Phase
  /-- `send_json` has sent the call, and it has not arrived. -/
  | sent
  /-- `handle_acquire` has been called. -/
  | started
  /-- The node leads, and is about to append the command. -/
  | minted (command : Command)
  /-- The command is in the log, and the handler waits for its commit. -/
  | appended
  /-- `_proxy_to_leader` looks for a leader, `left` more times. -/
  | polling (left : ℕ)
  /-- `_proxy_to_leader` waits for the answer to its first message, or to its second one. -/
  | first (call : ℕ)
  | second (call : ℕ)
  /-- The handler has answered. -/
  | over (status : ℕ)
  /-- The message was not delivered. -/
  | lost

/-- What can still append a command without another answer. -/
def Phase.live : Phase → Bool
  | .sent | .started | .minted _ | .polling _ => true
  | .appended | .first _ | .second _ | .over _ | .lost => false

/-- A message or a handler of the call, at the node to which it was sent. -/
structure Handler (ν : Type*) where
  node : ν
  phase : Phase

/-- The body of the call; there is no `request_id` in it. -/
structure Payload where
  lock : String
  clientId : String
  mode : Json
  ttlMs : Json

/-- A call with all its handlers.  What the nodes know about the leader is part of it, and so are
the commands that have been appended to a log for the call. -/
structure Forwarding (ν : Type*) where
  leads : ν → Bool
  leaderId : ν → Option ν
  handlers : List (Handler ν)
  log : List Command

/-- The moves; `i` is the place of a handler in the list. -/
inductive ProxyAction (ν : Type*)
  | elect (node : ν) (leads : Bool) (leaderId : Option ν)
  | deliver (i : ℕ)
  | lose (i : ℕ)
  | handle (i : ℕ) (requestId : String) (createdAt : ℚ)
  | poll (i : ℕ)
  | append (i : ℕ)
  | refuse (i : ℕ)
  | answer (i : ℕ) (status : ℕ)
  | returned (i : ℕ)
  | failed (i : ℕ)

namespace Forwarding

/-- A call that has arrived at a node. -/
def initial (leads : ν → Bool) (leaderId : ν → Option ν) (node : ν) : Forwarding ν :=
  ⟨leads, leaderId, [⟨node, .started⟩], []⟩

/-- The handler at place `i` goes on. -/
def setPhase (s : Forwarding ν) (i : ℕ) (node : ν) (phase : Phase) : Forwarding ν :=
  { s with handlers := s.handlers.set i ⟨node, phase⟩ }

/-- The handler at place `i` sends the call to `target`. -/
def send (s : Forwarding ν) (i : ℕ) (node target : ν) (phase : ℕ → Phase) : Forwarding ν :=
  { s with handlers :=
      s.handlers.set i ⟨node, phase s.handlers.length⟩ ++ [⟨target, .sent⟩] }

/-- The status of a handler that has answered. -/
def status? (s : Forwarding ν) (i : ℕ) : Option ℕ :=
  match s.handlers[i]? with
  | some ⟨_, .over status⟩ => some status
  | _ => none

/-- One move of a call. -/
def step [DecidableEq ν] (payload : Payload) (s : Forwarding ν) :
    ProxyAction ν → Option (Forwarding ν)
  | .elect node leads leaderId =>
      some { s with
        leads := Function.update s.leads node leads
        leaderId := Function.update s.leaderId node leaderId }
  | .deliver i => match s.handlers[i]? with
      | some ⟨node, .sent⟩ => some (s.setPhase i node .started)
      | _ => none
  | .lose i => match s.handlers[i]? with
      | some ⟨node, .sent⟩ => some (s.setPhase i node .lost)
      | _ => none
  | .handle i requestId createdAt => match s.handlers[i]? with
      | some ⟨node, .started⟩ =>
          if s.leads node = true then
            some (s.setPhase i node (.minted (.acquire requestId payload.lock payload.clientId
              payload.mode payload.ttlMs createdAt)))
          else some (s.setPhase i node (.polling 10))
      | _ => none
  | .poll i => match s.handlers[i]? with
      | some ⟨node, .polling left⟩ =>
          match s.leaderId node, left with
          | some leader, _ => some (s.send i node leader .first)
          | none, 0 => some (s.setPhase i node (.over 503))
          | none, left + 1 => some (s.setPhase i node (.polling left))
      | _ => none
  | .append i => match s.handlers[i]? with
      | some ⟨node, .minted command⟩ =>
          some { s.setPhase i node .appended with log := s.log ++ [command] }
      | _ => none
  | .refuse i => match s.handlers[i]? with
      | some ⟨node, .minted _⟩ =>
          -- `append_entry` returns at once when the node does not lead
          if s.leads node = true then none else some (s.setPhase i node (.over 503))
      | _ => none
  | .answer i status => match s.handlers[i]? with
      | some ⟨node, .appended⟩ => some (s.setPhase i node (.over status))
      | _ => none
  | .returned i => match s.handlers[i]? with
      | some ⟨node, .first call⟩ | some ⟨node, .second call⟩ =>
          match s.status? call with
          | some status =>
              if status < 400 then some (s.setPhase i node (.over status)) else none
          | none => none
      | _ => none
  | .failed i => match s.handlers[i]? with
      | some ⟨node, .first _⟩ =>
          match s.leaderId node with
          | some leader => some (s.send i node leader .second)
          | none => some (s.setPhase i node (.over 503))
      | some ⟨node, .second _⟩ => some (s.setPhase i node (.over 503))
      | _ => none

/-! ### What a move can do -/

/-- The ways in which a move can go, with everything that holds when it goes that way. -/
inductive Moves [DecidableEq ν] (payload : Payload) (s : Forwarding ν) :
    ProxyAction ν → Forwarding ν → Prop
  | elect (node : ν) (leads : Bool) (leaderId : Option ν) :
      Moves payload s (.elect node leads leaderId)
        { s with
          leads := Function.update s.leads node leads
          leaderId := Function.update s.leaderId node leaderId }
  | deliver {i : ℕ} {node : ν} (hi : s.handlers[i]? = some ⟨node, .sent⟩) :
      Moves payload s (.deliver i) (s.setPhase i node .started)
  | lose {i : ℕ} {node : ν} (hi : s.handlers[i]? = some ⟨node, .sent⟩) :
      Moves payload s (.lose i) (s.setPhase i node .lost)
  | mint {i : ℕ} {node : ν} {requestId : String} {createdAt : ℚ}
      (hi : s.handlers[i]? = some ⟨node, .started⟩) (hleads : s.leads node = true) :
      Moves payload s (.handle i requestId createdAt)
        (s.setPhase i node (.minted (.acquire requestId payload.lock payload.clientId
          payload.mode payload.ttlMs createdAt)))
  | proxy {i : ℕ} {node : ν} {requestId : String} {createdAt : ℚ}
      (hi : s.handlers[i]? = some ⟨node, .started⟩) (hleads : s.leads node ≠ true) :
      Moves payload s (.handle i requestId createdAt) (s.setPhase i node (.polling 10))
  | send {i left : ℕ} {node leader : ν} (hi : s.handlers[i]? = some ⟨node, .polling left⟩)
      (hleader : s.leaderId node = some leader) :
      Moves payload s (.poll i) (s.send i node leader .first)
  | giveUp {i : ℕ} {node : ν} (hi : s.handlers[i]? = some ⟨node, .polling 0⟩)
      (hleader : s.leaderId node = none) :
      Moves payload s (.poll i) (s.setPhase i node (.over 503))
  | pollAgain {i left : ℕ} {node : ν} (hi : s.handlers[i]? = some ⟨node, .polling (left + 1)⟩)
      (hleader : s.leaderId node = none) :
      Moves payload s (.poll i) (s.setPhase i node (.polling left))
  | append {i : ℕ} {node : ν} {command : Command}
      (hi : s.handlers[i]? = some ⟨node, .minted command⟩) :
      Moves payload s (.append i) { s.setPhase i node .appended with log := s.log ++ [command] }
  | refuse {i : ℕ} {node : ν} {command : Command}
      (hi : s.handlers[i]? = some ⟨node, .minted command⟩) (hleads : s.leads node ≠ true) :
      Moves payload s (.refuse i) (s.setPhase i node (.over 503))
  | answer {i status : ℕ} {node : ν} (hi : s.handlers[i]? = some ⟨node, .appended⟩) :
      Moves payload s (.answer i status) (s.setPhase i node (.over status))
  | returned {i call status : ℕ} {node : ν} {phase : Phase}
      (hi : s.handlers[i]? = some ⟨node, phase⟩)
      (hphase : phase = .first call ∨ phase = .second call)
      (hstatus : s.status? call = some status) (hsuccess : status < 400) :
      Moves payload s (.returned i) (s.setPhase i node (.over status))
  | retry {i call : ℕ} {node leader : ν} (hi : s.handlers[i]? = some ⟨node, .first call⟩)
      (hleader : s.leaderId node = some leader) :
      Moves payload s (.failed i) (s.send i node leader .second)
  | noLeader {i call : ℕ} {node : ν} (hi : s.handlers[i]? = some ⟨node, .first call⟩)
      (hleader : s.leaderId node = none) :
      Moves payload s (.failed i) (s.setPhase i node (.over 503))
  | failedTwice {i call : ℕ} {node : ν} (hi : s.handlers[i]? = some ⟨node, .second call⟩) :
      Moves payload s (.failed i) (s.setPhase i node (.over 503))

/-- The inversion of `step`. -/
theorem moves_of_step [DecidableEq ν] {payload : Payload} {s s' : Forwarding ν}
    {a : ProxyAction ν} (h : step payload s a = some s') : Moves payload s a s' := by
  cases a with
  | elect node leads leaderId =>
      obtain rfl := Option.some.inj h
      exact .elect node leads leaderId
  | deliver i =>
      simp only [step] at h
      split at h
      · next node hi =>
          obtain rfl := Option.some.inj h
          exact .deliver hi
      · cases h
  | lose i =>
      simp only [step] at h
      split at h
      · next node hi =>
          obtain rfl := Option.some.inj h
          exact .lose hi
      · cases h
  | handle i requestId createdAt =>
      simp only [step] at h
      split at h
      · next node hi =>
          split at h
          · next hleads =>
              obtain rfl := Option.some.inj h
              exact .mint hi hleads
          · next hleads =>
              obtain rfl := Option.some.inj h
              exact .proxy hi hleads
      · cases h
  | poll i =>
      simp only [step] at h
      split at h
      · next node left hi =>
          split at h
          · next leader hleader =>
              obtain rfl := Option.some.inj h
              exact .send hi hleader
          · next hleader =>
              obtain rfl := Option.some.inj h
              exact .giveUp hi hleader
          · next left hleader =>
              obtain rfl := Option.some.inj h
              exact .pollAgain hi hleader
      · cases h
  | append i =>
      simp only [step] at h
      split at h
      · next node command hi =>
          obtain rfl := Option.some.inj h
          exact .append hi
      · cases h
  | refuse i =>
      simp only [step] at h
      split at h
      · next node command hi =>
          split at h
          · cases h
          · next hleads =>
              obtain rfl := Option.some.inj h
              exact .refuse hi hleads
      · cases h
  | answer i status =>
      simp only [step] at h
      split at h
      · next node hi =>
          obtain rfl := Option.some.inj h
          exact .answer hi
      · cases h
  | returned i =>
      simp only [step] at h
      -- a message that was answered, the first one or the second
      have key : ∀ {call : ℕ} {node : ν} {phase : Phase}, s.handlers[i]? = some ⟨node, phase⟩ →
          phase = .first call ∨ phase = .second call →
          (match s.status? call with
            | some status =>
                if status < 400 then some (s.setPhase i node (.over status)) else none
            | none => none) = some s' → Moves payload s (.returned i) s' := by
        intro call node phase hi hphase h
        split at h
        · next status hstatus =>
            split at h
            · next hsuccess =>
                obtain rfl := Option.some.inj h
                exact .returned hi hphase hstatus hsuccess
            · cases h
        · cases h
      split at h
      · next node call hi => exact key hi (.inl rfl) h
      · next node call hi => exact key hi (.inr rfl) h
      · cases h
  | failed i =>
      simp only [step] at h
      split at h
      · next node call hi =>
          split at h
          · next leader hleader =>
              obtain rfl := Option.some.inj h
              exact .retry hi hleader
          · next hleader =>
              obtain rfl := Option.some.inj h
              exact .noLeader hi hleader
      · next node call hi =>
          obtain rfl := Option.some.inj h
          exact .failedTwice hi
      · cases h

/-! ### What can still append a command -/

/-- The messages and handlers that can still append a command without another answer. -/
def live (s : Forwarding ν) : ℕ := s.handlers.countP fun handler => handler.phase.live

/-- The first message of a proxy has failed, and it sends the call once more. -/
def retries (s : Forwarding ν) : ProxyAction ν → Bool
  | .failed i => match s.handlers[i]? with
      | some ⟨node, .first _⟩ => (s.leaderId node).isSome
      | _ => false
  | _ => false

/-- **A retry is sent when nothing is left of the attempt before**: no command was appended, and no
message or handler of the call is on its way to a log. -/
def RetriesClean (s : Forwarding ν) (a : ProxyAction ν) : Prop :=
  s.retries a = true → s.log.length = 0 ∧ s.live = 0

instance decidableRetriesClean (s : Forwarding ν) (a : ProxyAction ν) :
    Decidable (RetriesClean s a) := inferInstanceAs (Decidable (_ → _))

/-- One handler goes on, and others may be added. -/
theorem countP_set_append {handlers added : List (Handler ν)} {i : ℕ} {handler handler' : Handler ν}
    (h : handlers[i]? = some handler) :
    (handlers.set i handler' ++ added).countP (fun handler => handler.phase.live) +
        handler.phase.live.toNat =
      handlers.countP (fun handler => handler.phase.live) + handler'.phase.live.toNat +
        added.countP fun handler => handler.phase.live := by
  induction handlers generalizing i with
  | nil => cases h
  | cons first handlers ih =>
      cases i with
      | zero =>
          obtain rfl := Option.some.inj h
          rw [List.set_cons_zero, List.cons_append, List.countP_cons, List.countP_cons,
            List.countP_append]
          cases first.phase.live <;> cases handler'.phase.live <;> simp <;> omega
      | succ i =>
          have ih := ih h
          rw [List.set_cons_succ, List.cons_append, List.countP_cons, List.countP_cons]
          omega

theorem live_setPhase {s : Forwarding ν} {i : ℕ} {node : ν} {phase phase' : Phase}
    (h : s.handlers[i]? = some ⟨node, phase⟩) :
    (s.setPhase i node phase').live + phase.live.toNat = s.live + phase'.live.toNat := by
  have hcount := @countP_set_append _ s.handlers [] i ⟨node, phase⟩ ⟨node, phase'⟩ h
  rw [List.append_nil] at hcount
  exact hcount

theorem live_send {s : Forwarding ν} {i : ℕ} {node target : ν} {phase : Phase}
    {phase' : ℕ → Phase} (h : s.handlers[i]? = some ⟨node, phase⟩) :
    (s.send i node target phase').live + phase.live.toNat =
      s.live + (phase' s.handlers.length).live.toNat + 1 :=
  @countP_set_append _ s.handlers [⟨target, .sent⟩] i ⟨node, phase⟩
    ⟨node, phase' s.handlers.length⟩ h

/-- What a move does to the commands and to what can still append one. -/
inductive Spends (s s' : Forwarding ν) (a : ProxyAction ν) : Prop
  | quiet (hlog : s'.log = s.log) (hlive : s'.live ≤ s.live)
  | append (command : Command) (hlog : s'.log = s.log ++ [command]) (hlive : s'.live + 1 = s.live)
  | retry (hlog : s'.log = s.log) (hlive : s'.live = s.live + 1)
      (hretries : s.retries a = true)

/-- A handler that goes on without sending anything. -/
theorem Spends.of_setPhase {s : Forwarding ν} {a : ProxyAction ν} {i : ℕ} {node : ν}
    {phase phase' : Phase} (h : s.handlers[i]? = some ⟨node, phase⟩)
    (hlive : phase'.live.toNat ≤ phase.live.toNat) : Spends s (s.setPhase i node phase') a := by
  have hcount := @live_setPhase _ s i node phase phase' h
  exact .quiet rfl (by omega)

/-- **Only an append adds a command, and only a retry adds a chance of one.** -/
theorem spends_of_moves [DecidableEq ν] {payload : Payload} {s s' : Forwarding ν}
    {a : ProxyAction ν} (h : Moves payload s a s') : Spends s s' a := by
  cases h with
  | elect => exact .quiet rfl (le_refl _)
  | deliver hi => exact .of_setPhase hi (le_refl _)
  | lose hi => exact .of_setPhase hi (Nat.zero_le _)
  | mint hi => exact .of_setPhase hi (le_refl _)
  | proxy hi => exact .of_setPhase hi (le_refl _)
  | @send i left node leader hi =>
      -- the message takes over from the handler
      have hcount := @live_send _ s i node leader _ .first hi
      simp only [Phase.live, Bool.toNat_true, Bool.toNat_false] at hcount
      exact .quiet rfl (by omega)
  | giveUp hi => exact .of_setPhase hi (Nat.zero_le _)
  | pollAgain hi => exact .of_setPhase hi (le_refl _)
  | append hi => exact .append _ rfl (live_setPhase hi)
  | refuse hi => exact .of_setPhase hi (Nat.zero_le _)
  | answer hi => exact .of_setPhase hi (le_refl _)
  | returned hi => exact .of_setPhase hi (Nat.zero_le _)
  | @retry i call node leader hi hleader =>
      refine .retry rfl (@live_send _ s i node leader (.first call) .second hi) ?_
      rw [retries, hi]
      exact congrArg Option.isSome hleader
  | noLeader hi => exact .of_setPhase hi (le_refl _)
  | failedTwice hi => exact .of_setPhase hi (le_refl _)

/-- **One call appends one command at most**, if every retry is sent when nothing is left of the
attempt before. -/
theorem oneCommand [DecidableEq ν] {payload : Payload} {leads : ν → Bool} {leaderId : ν → Option ν}
    {node : ν} {s : Forwarding ν}
    (h : Run (step payload) RetriesClean (initial leads leaderId node) s) : s.log.length ≤ 1 := by
  have hbudget : s.log.length + s.live ≤ 1 := by
    refine h.invariant (I := fun s => s.log.length + s.live ≤ 1) (fun s a s' hI hok hstep => ?_)
      (le_refl 1)
    cases spends_of_moves (moves_of_step hstep) with
    | quiet hlog hlive =>
        rw [hlog]
        omega
    | append command hlog hlive =>
        rw [hlog, List.length_append, List.length_singleton]
        omega
    | retry hlog hlive hretries =>
        have hclean := hok hretries
        rw [hlog]
        omega
  omega

/-! ### A retry after a timeout -/

/-- Alice wants the lock for herself. -/
def alicesCall : Payload := ⟨"db", "alice", .exclusive, .null⟩

/-- A follower passes the call on to the leader, which appends its command.  The commit takes longer
than the timeout of the bus, and the follower sends the call once more. -/
def slowCommit : List (ProxyAction ν) :=
  [.handle 0 "u0" 0, .poll 0, .deliver 1, .handle 1 "u1" 1, .append 1, .failed 0, .deliver 2,
    .handle 2 "u2" 3, .append 2]

/-- One node leads, and another one, which knows it, gets the call. -/
def atFollower [DecidableEq ν] (follower leader : ν) : Forwarding ν :=
  initial (fun node => node == leader) (fun _ => some leader) follower

/-- Both commands are in the log; the first one takes the lock, and the second one waits for it. -/
theorem oneCommand_fails :
    ¬ ∀ s : Forwarding (Fin 2), Run (step alicesCall) anyAction (atFollower 0 1) s →
      s.log.length ≤ 1 := by
  intro hall
  obtain ⟨s, hs, hlength, -⟩ := Run.exists_of_exec (step alicesCall) anyAction
    (atFollower (0 : Fin 2) 1) slowCommit (fun s => s.log.length = 2 ∧
      isGranted (applyAll s.log) "u1" = true ∧ isWaiting (applyAll s.log) "u2" = true)
    (by decide +kernel)
  have hle := hall s hs
  omega

/-- A node takes itself for a follower of a leader that has stopped.  It hears of the next leader
before it tries again, and that one appends the command. -/
def stoppedLeader (follower next : ν) : List (ProxyAction ν) :=
  [.handle 0 "u0" 0, .poll 0, .lose 1, .elect next true (some next),
    .elect follower false (some next), .failed 0, .deliver 2, .handle 2 "u1" 1, .append 2,
    .answer 2 200, .returned 0]

theorem oneCommand_stoppedLeader :
    ∃ s : Forwarding (Fin 3), Run (step alicesCall) RetriesClean
      (initial (fun _ => false) (fun _ => some 1) 0) s ∧
      isGranted (applyAll s.log) "u1" = true ∧ s.log.length ≤ 1 := by
  obtain ⟨s, hs, hgranted⟩ := Run.exists_of_exec (step alicesCall) RetriesClean
    (initial (fun _ => false) (fun _ => some 1) 0) (stoppedLeader (0 : Fin 3) 2)
    (fun s => isGranted (applyAll s.log) "u1" = true) (by decide +kernel)
  exact ⟨s, hs, hgranted, oneCommand hs⟩

end Forwarding

end LockManager
