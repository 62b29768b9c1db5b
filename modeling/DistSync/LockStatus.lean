/-
**What became of a request.**

A client whose request waits asks `/lock/status` again and again, and it may ask any node: the
handler answers from the table of its own replica, without asking the leader.  So two answers may
differ, and a client has to know which differences to expect.

A request that was granted or aborted has met its fate: the state machine never changes such an
answer, whatever the modes and times in the commands are, also when a grant raises halfway through
the queue.  Since the replicas apply prefixes of one sequence, no two nodes ever tell a client
different fates, and only a node that is behind says that the request waits or is unknown.

Main definitions:

* `LockManager.LockStateMachine.handleStatus` — the handler of `/lock/status`;
* `LockManager.Result.Final` — the answers that are not `waiting`.

Main results:

* `LockManager.final_append` — a fate is final;
* `Raft.oneFate` — **all nodes tell the same fate**.
-/

import DistSync.LockFairness
import DistSync.LockService

set_option relaxedAutoImplicit false
set_option autoImplicit false

namespace LockManager

open LockStateMachine

/-! ### The handler -/

/-- The fields of an answer about a request. -/
def RequestInfo.fields (info : RequestInfo) : List (String × Json) :=
  [("request_id", .str info.requestId), ("lock", .str info.lock),
    ("client_id", .str info.clientId), ("mode", info.mode)]

/-- The dictionary of an answer. -/
def Result.toJson : Result → Json
  | .granted info => .obj (("status", .str "granted") :: info.fields)
  | .waiting info => .obj (("status", .str "waiting") :: info.fields)
  | .aborted requestId lock clientId reason => .obj
      [("status", .str "aborted"), ("request_id", .str requestId), ("lock", .str lock),
        ("client_id", .str clientId), ("reason", .str reason)]
  | .released lock clientId => .obj
      [("status", .str "released"), ("lock", .str lock), ("client_id", .str clientId)]
  | .notHeld lock clientId => .obj
      [("status", .str "not_held"), ("lock", .str lock), ("client_id", .str clientId)]
  | .notFound requestId => .obj [("status", .str "not_found"), ("request_id", .str requestId)]
  | .error text => .obj [("status", .str "error"), ("error", .str text)]

/-- A queued request, as `lock_snapshot` shows it. -/
def LockRequest.snapshot (request : LockRequest) : Json :=
  .obj [("request_id", .str request.requestId), ("client_id", .str request.clientId),
    ("mode", request.mode), ("created_at", .num request.createdAt)]

namespace LockStateMachine

/-- `get_status`. -/
def getStatus (sm : LockStateMachine) (requestId : String) : Option Result :=
  sm.requests.get? requestId

/-- `lock_snapshot`. -/
def lockSnapshot (sm : LockStateMachine) (lockName : String) : Json :=
  match sm.locks.get? lockName with
  | none => .obj [("lock", .str lockName), ("holders", .obj []), ("queue", .arr [])]
  | some state => .obj
      [("lock", .str lockName), ("holders", .obj state.holders.entries),
        ("queue", .arr (state.queue.map LockRequest.snapshot))]

/-- **`handle_status`**: the HTTP status and the body, for the parameters `request_id` and `lock`
of the query.  An empty parameter counts as a missing one. -/
def handleStatus (sm : LockStateMachine) (requestId lockName : Option String) : ℕ × Json :=
  match requestId.filter (· ≠ ""), lockName.filter (· ≠ "") with
  | some id, _ => (200, ((sm.getStatus id).map Result.toJson).getD
      (.obj [("status", .str "unknown")]))
  | none, some name => (200, sm.lockSnapshot name)
  | none, none => (400, .obj [("error", .str "missing_query")])

/-- What the handler says about a request. -/
theorem handleStatus_request (sm : LockStateMachine) {id : String} (hid : id ≠ "")
    (lockName : Option String) :
    sm.handleStatus (some id) lockName =
      (200, ((sm.getStatus id).map Result.toJson).getD (.obj [("status", .str "unknown")])) := by
  rw [handleStatus, Option.filter_some, if_pos (decide_eq_true hid)]

end LockStateMachine

/-! ### A fate is final -/

/-- The answer is not `waiting`. -/
def Result.Final (result : Result) : Prop := ∀ info, result ≠ .waiting info

variable {sm sm' : LockStateMachine} {command : Command} {arrived : Option LockRequest}
  {requests : List LockRequest} {id : String} {result : Result}

/-- **A command changes no answer but those of queued requests**, and these wait. -/
theorem Serves.stored (hserves : Serves sm sm' command arrived) (h : Served sm requests)
    (hresult : sm.requests.get? id = some result) (hfinal : result.Final) :
    sm'.requests.get? id = some result := by
  have hqueue : ∀ name, ∀ r ∈ (sm.lockState name).queue, r.requestId ≠ id := by
    rintro name r hr rfl
    obtain ⟨info, hinfo⟩ := isWaiting_iff.1 (h.of_mem_queue hr).2.2
    rw [hinfo] at hresult
    exact hfinal info (Option.some.inj hresult).symm
  have hnew : ∀ {id'}, sm.requests.get? id' = none → id ≠ id' := by
    rintro id' hnew rfl
    rw [hnew] at hresult
    cases hresult
  cases hserves with
  | same hnothing hstored => rw [hstored, hresult]
  | grant request hfresh hgrant hexpiry hstored => rw [hstored, if_neg (hnew hfresh), hresult]
  | wait request hfresh hgrant hstored => rw [hstored, if_neg (hnew hfresh), hresult]
  | release lock clientId granted dropped rest hheld htake hexpiry hdropped hgranted hstored =>
      rw [hstored, hresult]
      intro r hr
      refine hqueue lock r ?_
      rw [Serves.queue_eq htake]
      exact List.mem_append_left _ (List.mem_append_left _ hr)
  | abort requestId reason name request hfind haborted hstored =>
      rw [hstored, hresult]
      rintro rfl
      exact hqueue name request (List.mem_of_find?_eq_some hfind)
        (by simpa using List.find?_some hfind)

/-- **A fate is final**, whatever commands follow. -/
theorem final_append {commands : List Command} (rest : List Command)
    (hresult : (applyAll commands).getStatus id = some result) (hfinal : result.Final) :
    (applyAll (commands ++ rest)).getStatus id = some result := by
  induction rest using List.reverseRecOn with
  | nil => rwa [List.append_nil]
  | append_singleton rest command ih =>
      rw [← List.append_assoc, applyAll_snoc]
      exact (apply_serves _ command).stored (served_applyAll (commands ++ rest)) ih hfinal

end LockManager

/-! ### All nodes tell the same fate -/

namespace Raft

open Runs LockManager LockManager.LockStateMachine

variable {ν Cmd : Type} {decode : Cmd → LockManager.Command}

/-- What the table of a node says about a request stays true of a node that has applied more. -/
theorem fate_of_ahead {node node' : RaftNode ν Cmd} {id : String} {result : Result}
    (hahead : node.applied <+: node'.applied)
    (hresult : (lockTable decode node).getStatus id = some result) (hfinal : result.Final) :
    (lockTable decode node').getStatus id = some result := by
  obtain ⟨rest, heq⟩ := hahead
  rw [lockTable_of_append heq.symm]
  exact final_append _ hresult hfinal

variable [DecidableEq ν] {M : Membership ν} {s s' : Cluster ν Cmd}
  {callback : ν → ApplyCallback Cmd}

/-- **All nodes tell the same fate.**  When coroutines go on in the term in which they were
suspended, and node `n` has answered that a request was granted or aborted, then node `m`, at the
same time or later, gives the same answer; or it has applied less than `n` had, and answers that
the request waits or is unknown. -/
theorem oneFate (h : Run (Raft.step M) (InTerm M) (initial callback) s)
    (h' : Run (Raft.step M) (InTerm M) s s') {n m : ν} {id : String} {result : Result}
    (hid : id ≠ "") (hresult : (lockTable decode (s.nodes n).raft).getStatus id = some result)
    (hfinal : result.Final) (lockName lockName' : Option String) :
    (lockTable decode (s'.nodes m).raft).handleStatus (some id) lockName =
        (lockTable decode (s.nodes n).raft).handleStatus (some id) lockName' ∨
      (s'.nodes m).raft.lastApplied < (s.nodes n).raft.lastApplied ∧
      ((lockTable decode (s'.nodes m).raft).handleStatus (some id) lockName =
          (200, .obj [("status", .str "unknown")]) ∨
        ∃ info, (lockTable decode (s'.nodes m).raft).handleStatus (some id) lockName =
          (200, (Result.waiting info).toJson)) := by
  have haligned := aligned h h' n m
  simp only [handleStatus_request _ hid, hresult]
  by_cases hlater : (s.nodes n).raft.lastApplied ≤ (s'.nodes m).raft.lastApplied
  · exact .inl (by rw [fate_of_ahead (haligned.ahead hlater) hresult hfinal])
  · have hbehind := haligned.behind (not_le.1 hlater).le
    cases hstored : (lockTable decode (s'.nodes m).raft).getStatus id with
    | none => exact .inr ⟨not_le.1 hlater, .inl rfl⟩
    | some result' =>
        by_cases hwaits : result'.Final
        · -- a fate that the other one knows is the fate that `n` knows
          have hsame := fate_of_ahead hbehind hstored hwaits
          rw [hresult, Option.some.injEq] at hsame
          exact .inl (by rw [hsame])
        · rw [Result.Final] at hwaits
          push Not at hwaits
          obtain ⟨info, rfl⟩ := hwaits
          exact .inr ⟨not_le.1 hlater, .inr ⟨info, rfl⟩⟩

/-- Node 0, which is ahead, says of the first request what node 1 says. -/
theorem oneFate_ahead :
    ∃ s : Cluster (Fin 3) ℕ, Run (Raft.step trio) (InTerm trio) (initial returning) s ∧
      (s.nodes 1).raft.lastApplied < (s.nodes 0).raft.lastApplied ∧
      (lockTable handOver (s.nodes 0).raft).handleStatus (some "r1") none =
        (200, (Result.granted ⟨"r1", "db", "alice", .exclusive⟩).toJson) := by
  obtain ⟨s, hs, h1, hlast1, hlast0⟩ := Run.exists_of_exec (Raft.step trio) (InTerm trio)
    (initial returning) tellsOneOfThree
    (fun s => (s.nodes 1).raft.applied = [(0, 0)] ∧ (s.nodes 1).raft.lastApplied = 0 ∧
      (s.nodes 0).raft.lastApplied = 2) (by decide)
  have hresult : (lockTable handOver (s.nodes 1).raft).getStatus "r1" =
      some (.granted ⟨"r1", "db", "alice", .exclusive⟩) := by
    rw [lockTable, h1]
    rfl
  have hfinal : (Result.granted ⟨"r1", "db", "alice", .exclusive⟩).Final := by
    rintro info ⟨⟩
  refine ⟨s, hs, by rw [hlast1, hlast0]; decide, ?_⟩
  rcases oneFate (m := 0) hs (.refl s) (by decide) hresult hfinal none none with hsame | ⟨hlt, -⟩
  · rw [hsame, handleStatus_request _ (by decide), hresult]
    rfl
  · -- node 0 is not behind
    rw [hlast1, hlast0] at hlt
    exact absurd hlt (by decide)

end Raft
