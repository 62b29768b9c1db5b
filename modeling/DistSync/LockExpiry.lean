/-
**The expiry loop.**

`_expiry_loop` reads the clock, asks `expired_holders` for the holdings whose time is over, and then
appends one release for each of them.  A release names a client and a lock, not a grant, and it is
applied later than the clock was read: `append_entry` waits for a majority, and other commands may
be in the log before it.  If one of these grants the same lock to the same client again, the loop
takes back a holding that has not expired.

The leader is modelled with the part of its log that is not applied yet.  The releases of the loop
are marked there with the `now` they come from, so that a release that is committed late, when the
loop has gone round again, is still compared with its own clock.  `append_entry` may return before
its entry is applied, so the loop goes on at any time.

Main definitions:

* `LockManager.expiredHolders` — `expired_holders`;
* `LockManager.Leader.step` — the interleavings of the loop with the other commands;
* `LockManager.renews` — a command grants a lock to a client for longer.

Main results:

* `LockManager.Leader.takesBackExpired` — **without such a grant the loop only takes back what has
  expired**; `LockManager.Leader.takesBackExpired_fails` — with one it does not.
-/

import DistSync.LockRequests
import DistSync.RunRules

set_option relaxedAutoImplicit false
set_option autoImplicit false

namespace LockManager

open LockStateMachine Runs

/-! ### Holdings that have expired -/

/-- **`expired_holders`**: the locks and clients with an expiry up to `now`. -/
def expiredHolders (sm : LockStateMachine) (now : ℚ) : List (String × String) :=
  sm.locks.entries.flatMap fun (name, state) =>
    state.holderExpiry.entries.filterMap fun (clientId, expiry) =>
      match expiry with
      | some time => if time ≤ now then some (name, clientId) else none
      | none => none

/-- If the client holds the lock, its time was over at `now`. -/
def LockState.expiredBy (state : LockState) (clientId : String) (now : ℚ) : Prop :=
  state.heldBy clientId → ∃ time ≤ now, state.holderExpiry.get? clientId = some (some time)

/-- A holding that is named has an expiry up to `now`. -/
theorem exists_expiry_of_mem_expiredHolders {sm : LockStateMachine} {now : ℚ}
    {lock clientId : String} (h : (lock, clientId) ∈ expiredHolders sm now) :
    ∃ time ≤ now, (sm.lockState lock).holderExpiry.get? clientId = some (some time) := by
  simp only [expiredHolders, List.mem_flatMap, List.mem_filterMap] at h
  obtain ⟨⟨name, state⟩, hstate, ⟨client, expiry⟩, hexpiry, hitem⟩ := h
  cases expiry with
  | none => cases hitem
  | some time =>
      rw [Option.ite_none_right_eq_some] at hitem
      obtain ⟨hle, hitem⟩ := hitem
      cases hitem
      refine ⟨time, hle, ?_⟩
      rw [lockState_eq_of_get? (Dict.get?_eq_some_iff.2 hstate)]
      exact Dict.get?_eq_some_iff.2 hexpiry

theorem expiredBy_of_mem_expiredHolders {sm : LockStateMachine} {now : ℚ} {lock clientId : String}
    (h : (lock, clientId) ∈ expiredHolders sm now) :
    (sm.lockState lock).expiredBy clientId now :=
  fun _ => exists_expiry_of_mem_expiredHolders h

/-! ### Grants -/

/-- The time of the request, if granted, is over at `now`. -/
def LockRequest.expiresBy (request : LockRequest) (now : ℚ) : Bool :=
  match expiry? request with
  | some (some time) => decide (time ≤ now)
  | _ => false

/-- The requests for the lock `name` that a command grants. -/
def grants (sm : LockStateMachine) (name : String) : Command → List LockRequest
  | .acquire requestId lock clientId mode ttlMs createdAt =>
      let request : LockRequest := ⟨requestId, lock, clientId, mode, createdAt, ttlMs⟩
      if lock = name ∧ (sm.requests.get? requestId).isNone = true ∧
        canGrant (sm.lockState name) request = true then [request] else []
  | .release lock clientId =>
      if lock = name ∧ ((sm.lockState name).holders.get? clientId).isSome = true then
        (takeGranted ((sm.lockState name).leave clientId)).1
      else []
  | _ => []

/-- The command grants the lock to the client, for longer than until `now`. -/
def renews (sm : LockStateMachine) (command : Command) (lock clientId : String) (now : ℚ) : Bool :=
  (grants sm lock command).any fun request =>
    decide (request.clientId = clientId) && !request.expiresBy now

namespace LockState.expiredBy

variable {state : LockState} {clientId : String} {now : ℚ}

theorem hold (h : state.expiredBy clientId now) {request : LockRequest}
    (hrequest : request.clientId = clientId → request.expiresBy now = true) :
    (state.hold request).1.expiredBy clientId now := by
  intro hheld
  rw [heldBy, hold_holders, Dict.get?_set] at hheld
  by_cases hclient : clientId = request.clientId
  · have hexpires := hrequest hclient.symm
    rw [LockRequest.expiresBy] at hexpires
    split at hexpires
    · next time hexpiry =>
        refine ⟨time, of_decide_eq_true hexpires, ?_⟩
        simp [LockState.hold, hexpiry, hclient]
    · cases hexpires
  · rw [if_neg hclient] at hheld
    obtain ⟨time, hle, htime⟩ := h hheld
    refine ⟨time, hle, ?_⟩
    rw [← htime, LockState.hold]
    cases expiry? request with
    | none => rfl
    | some expiry => exact Dict.get?_set.trans (if_neg hclient)

theorem holdAll (h : state.expiredBy clientId now) {granted : List LockRequest}
    (hgranted : ∀ r ∈ granted, r.clientId = clientId → r.expiresBy now = true) :
    (state.holdAll granted).expiredBy clientId now := by
  induction granted generalizing state with
  | nil => exact h
  | cons request granted ih =>
      have hfirst := h.hold (hgranted request List.mem_cons_self)
      cases hcompleted : (state.hold request).2 with
      | false =>
          rw [LockState.holdAll_of_raise hcompleted]
          exact hfirst
      | true =>
          rw [LockState.holdAll_of_hold hcompleted]
          exact ih hfirst fun r hr => hgranted r (List.mem_cons_of_mem _ hr)

theorem leave (h : state.expiredBy clientId now) (leaver : String) :
    (state.leave leaver).expiredBy clientId now := by
  intro hheld
  rw [heldBy, LockState.leave, Dict.get?_erase] at hheld
  by_cases hclient : clientId = leaver
  · rw [if_pos hclient] at hheld
    cases hheld
  · rw [if_neg hclient] at hheld
    obtain ⟨time, hle, htime⟩ := h hheld
    exact ⟨time, hle, (Dict.get?_erase_of_ne hclient).trans htime⟩

end LockState.expiredBy

/-- **A command that does not renew a holding leaves it expired.** -/
theorem LockMoves.expiredBy {sm : LockStateMachine} {name clientId : String} {now : ℚ}
    {command : Command} {state : LockState} (hmove : LockMoves sm name command state)
    (h : (sm.lockState name).expiredBy clientId now)
    (hrenews : renews sm command name clientId now = false) : state.expiredBy clientId now := by
  have hgrants : ∀ r ∈ grants sm name command, r.clientId = clientId → r.expiresBy now = true := by
    simpa [renews] using hrenews
  cases hmove with
  | same => exact h
  | grant request hname hnew hgrant =>
      subst hname
      refine h.hold (hgrants request ?_)
      rw [grants, if_pos ⟨rfl, by rw [hnew]; rfl, hgrant⟩]
      exact List.mem_cons_self
  | wait request hname hnew hgrant => exact h
  | @release leaver hheld =>
      rw [LockState.regrant]
      refine LockState.expiredBy.holdAll ?_ ?_
      · exact h.leave leaver
      rw [grants, if_pos ⟨rfl, hheld⟩] at hgrants
      exact hgrants
  | abort hfound => exact h

/-! ### The leader -/

/-- An entry of the log; a release of the expiry loop is marked with the `now` of the loop. -/
inductive LogEntry
  | command (command : Command)
  | expired (now : ℚ) (lock clientId : String)

/-- The command that is applied for an entry. -/
def LogEntry.toCommand : LogEntry → Command
  | command command' => command'
  | expired _ lock clientId => .release lock clientId

/-- The `now`, the lock and the client of a release of the expiry loop. -/
def LogEntry.expired? : LogEntry → Option (ℚ × String × String)
  | command _ => none
  | expired now lock clientId => some (now, lock, clientId)

/-- The leader, as far as the expiry loop sees it: the entries that are in its log but not applied
yet, the `now` of the loop, and the items for which it has not appended a release. -/
structure Leader where
  lockState : LockStateMachine
  log : List LogEntry
  now : ℚ
  items : List (String × String)

/-- The moves of the leader. -/
inductive LeaderAction
  /-- An entry is appended for a client, for the deadlock loop, or by another leader. -/
  | append (command : Command)
  /-- The loop wakes up, reads the clock and calls `expired_holders`. -/
  | wake (now : ℚ)
  /-- The loop appends the release of the next item. -/
  | issue
  /-- `append_entry` returns at once, because the node does not lead. -/
  | skip
  /-- The next entry is committed and applied. -/
  | apply
  /-- A new leader has cut the log. -/
  | truncate (length : ℕ)

namespace Leader

/-- A leader with an empty log. -/
def initial : Leader := ⟨∅, [], 0, []⟩

/-- One move of the leader. -/
def step (s : Leader) : LeaderAction → Option Leader
  | .append command => some { s with log := s.log ++ [.command command] }
  | .wake now =>
      if s.items.isEmpty = true then
        some { s with now := now, items := expiredHolders s.lockState now }
      else none
  | .issue => match s.items with
      | [] => none
      | (lock, clientId) :: items =>
          some { s with log := s.log ++ [.expired s.now lock clientId], items := items }
  | .skip => match s.items with
      | [] => none
      | _ :: items => some { s with items := items }
  | .apply => match s.log with
      | [] => none
      | entry :: log => some { s with lockState := (s.lockState.apply entry.toCommand).1, log := log }
  | .truncate length => some { s with log := s.log.take length }

/-- The releases of the loop that are not applied yet, with their `now`: those in the log, and the
items of the loop. -/
def pending (s : Leader) : List (ℚ × String × String) :=
  s.log.filterMap LogEntry.expired? ++ s.items.map fun item => (s.now, item)

/-- The entry that is applied does not renew a holding that a pending release is about. -/
def Undisturbed (s : Leader) : LeaderAction → Prop
  | .apply => ∀ entry ∈ s.log.head?, ∀ p ∈ pending { s with log := s.log.tail },
      renews s.lockState entry.toCommand p.2.1 p.2.2 p.1 = false
  | _ => True

instance decidableUndisturbed (s : Leader) : (a : LeaderAction) → Decidable (Undisturbed s a)
  | .apply => inferInstanceAs (Decidable (∀ entry ∈ s.log.head?,
      ∀ p ∈ pending { s with log := s.log.tail },
        renews s.lockState entry.toCommand p.2.1 p.2.2 p.1 = false))
  | .append _ => .isTrue trivial
  | .wake _ => .isTrue trivial
  | .issue => .isTrue trivial
  | .skip => .isTrue trivial
  | .truncate _ => .isTrue trivial

/-- **The loop only takes back expired holdings**: if the next entry to be applied is a release of
the loop, the holding that it removes had expired at the `now` of the loop. -/
def TakesBackExpired (s : Leader) : Prop :=
  ∀ now lock clientId log, s.log = .expired now lock clientId :: log →
    (s.lockState.lockState lock).expiredBy clientId now

/-- What the pending releases are about has expired. -/
def PendingExpired (s : Leader) : Prop :=
  ∀ p ∈ pending s, (s.lockState.lockState p.2.1).expiredBy p.2.2 p.1

/-- What is taken out of the log or of the items is pending no longer. -/
theorem mem_pending_of_subset {s s' : Leader} {p : ℚ × String × String} (hp : p ∈ pending s')
    (hlog : s'.log ⊆ s.log) (hitems : s'.items ⊆ s.items) (hnow : s'.now = s.now) :
    p ∈ pending s := by
  rcases List.mem_append.1 hp with hp | hp
  · obtain ⟨entry, hentry, hp⟩ := List.mem_filterMap.1 hp
    exact List.mem_append_left _ (List.mem_filterMap.2 ⟨entry, hlog hentry, hp⟩)
  · obtain ⟨item, hitem, rfl⟩ := List.mem_map.1 hp
    rw [hnow]
    exact List.mem_append_right _ (List.mem_map_of_mem (hitems hitem))

/-- An entry that is appended adds its release to the pending ones. -/
theorem mem_pending_append {s : Leader} {entry : LogEntry} {items : List (String × String)}
    {p : ℚ × String × String} (h : p ∈ pending { s with log := s.log ++ [entry], items := items }) :
    p ∈ s.log.filterMap LogEntry.expired? ∨ entry.expired? = some p ∨
      ∃ item ∈ items, (s.now, item) = p := by
  simpa [pending, or_assoc] using h

theorem pendingExpired_step {s s' : Leader} {a : LeaderAction} (h : PendingExpired s)
    (hok : Undisturbed s a) (hstep : step s a = some s') : PendingExpired s' := by
  intro p hp
  cases a with
  | append command =>
      obtain rfl := Option.some.inj hstep
      refine h p ?_
      rcases mem_pending_append hp with hlog | hentry | ⟨item, hitem, rfl⟩
      · exact List.mem_append_left _ hlog
      · cases hentry
      · exact List.mem_append_right _ (List.mem_map_of_mem hitem)
  | wake time =>
      obtain ⟨-, hstep⟩ := Option.ite_none_right_eq_some.1 hstep
      cases hstep
      rcases List.mem_append.1 hp with hlog | hp
      · exact h p (List.mem_append_left _ hlog)
      · obtain ⟨item, hitem, rfl⟩ := List.mem_map.1 hp
        exact expiredBy_of_mem_expiredHolders hitem
  | issue =>
      cases hitems : s.items with
      | nil => simp [step, hitems] at hstep
      | cons item items =>
          simp only [step, hitems, Option.some.injEq] at hstep
          subst hstep
          refine h p ?_
          rcases mem_pending_append hp with hlog | hentry | ⟨item', hitem, rfl⟩
          · exact List.mem_append_left _ hlog
          · -- the release was an item before
            obtain rfl := Option.some.inj hentry
            exact List.mem_append_right _ (hitems ▸ List.mem_cons_self)
          · exact List.mem_append_right _
              (List.mem_map_of_mem (hitems ▸ List.mem_cons_of_mem _ hitem))
  | skip =>
      cases hitems : s.items with
      | nil => simp [step, hitems] at hstep
      | cons item items =>
          simp only [step, hitems, Option.some.injEq] at hstep
          subst hstep
          refine h p (mem_pending_of_subset hp (List.Subset.refl _) ?_ rfl)
          rw [hitems]
          exact List.subset_cons_self item items
  | apply =>
      cases hlog : s.log with
      | nil => simp [step, hlog] at hstep
      | cons entry log =>
          simp only [step, hlog, Option.some.injEq] at hstep
          subst hstep
          have hrenews := hok entry (by rw [hlog]; rfl) p (by rwa [hlog])
          refine (apply_lockMoves _ _ entry.toCommand).expiredBy
            (h p (mem_pending_of_subset hp ?_ (List.Subset.refl _) rfl)) hrenews
          rw [hlog]
          exact List.subset_cons_self entry log
  | truncate length =>
      obtain rfl := Option.some.inj hstep
      exact h p (mem_pending_of_subset hp (fun _ => List.mem_of_mem_take) (List.Subset.refl _) rfl)

/-- **The expiry loop only takes back expired holdings**, as long as no command grants a lock again,
for longer, to a client whose release is pending. -/
theorem takesBackExpired {s : Leader} (h : Run step Undisturbed initial s) :
    TakesBackExpired s := by
  have hpending : PendingExpired s := by
    refine h.invariant (fun _ _ _ => pendingExpired_step) fun p hp => ?_
    cases hp
  intro now lock clientId log hlog
  refine hpending (now, lock, clientId) (List.mem_append_left _ ?_)
  rw [hlog]
  exact List.mem_cons_self

/-! ### A holding that is renewed -/

/-- The release of the loop that is applied next, if it removes a holding: the `now` of the loop and
the expiry of the holding. -/
def taken (s : Leader) : Option (ℚ × Option ℚ) :=
  match s.log with
  | .expired now lock clientId :: _ =>
      if ((s.lockState.lockState lock).holders.get? clientId).isSome = true then
        some (now, ((s.lockState.lockState lock).holderExpiry.get? clientId).join)
      else none
  | _ => none

/-- What `TakesBackExpired` says about the holding that is removed. -/
theorem TakesBackExpired.le {s : Leader} (h : TakesBackExpired s) {now : ℚ} {expiry : Option ℚ}
    (htaken : taken s = some (now, expiry)) : ∃ time ≤ now, expiry = some time := by
  simp only [taken] at htaken
  split at htaken
  · next now' lock clientId log hlog =>
      obtain ⟨hheld, htaken⟩ := Option.ite_none_right_eq_some.1 htaken
      obtain ⟨rfl, rfl⟩ := Prod.mk.inj (Option.some.inj htaken)
      obtain ⟨time, hle, htime⟩ := h now' lock clientId log hlog hheld
      exact ⟨time, hle, by rw [htime]; rfl⟩
  · cases htaken

/-- Alice's lock expires.  While her release and her next acquire are in the log, the loop wakes up,
and its release of the old holding removes the new one. -/
def renewed : List LeaderAction :=
  [.append (.acquire "r1" "db" "alice" .exclusive (.num 1000) 0), .apply,
    .append (.release "db" "alice"),
    .append (.acquire "r2" "db" "alice" .exclusive (.num 10000) 2),
    .wake 2, .issue, .apply, .apply]

theorem takesBackExpired_fails :
    ¬ ∀ s : Leader, Run step anyAction initial s → TakesBackExpired s := by
  intro hall
  obtain ⟨s, hs, htaken⟩ := Run.exists_of_exec step anyAction initial renewed
    (fun s => taken s = some (2, some 12)) (by decide +kernel)
  obtain ⟨time, hle, htime⟩ := (hall s hs).le htaken
  rw [← Option.some.inj htime] at hle
  exact absurd hle (by decide +kernel)

/-- Alice's lock expires, and the loop takes it back for Bob. -/
def expiredToBob : List LeaderAction :=
  [.append (.acquire "r1" "db" "alice" .exclusive (.num 1000) 0), .apply,
    .append (.acquire "r2" "db" "bob" .exclusive (.num 10000) 1), .wake 2, .issue, .apply]

theorem takesBackExpired_expiredToBob :
    ∃ s : Leader, Run step Undisturbed initial s ∧ taken s = some (2, some 1) ∧
      TakesBackExpired s := by
  obtain ⟨s, hs, htaken⟩ := Run.exists_of_exec step Undisturbed initial expiredToBob
    (fun s => taken s = some (2, some 1)) (by decide +kernel)
  exact ⟨s, hs, htaken, takesBackExpired hs⟩

end Leader

end LockManager
