/-
**A log whose last line was cut off.**

`_append_to_wal` opens the file, writes `json.dumps(log_entry)` and a newline, and closes it.  A
crash in the middle may leave the beginning of such a line.  `_recover_from_wal` handles all
exceptions of its loop and of the fill in one place: when `json.loads` fails, it logs an error and
fills nothing, whatever it has read before.  And the node goes on to write behind the rest of the
line, which is then not read by any later start either.

This module goes down from the lines of `DistSync/QueueRecovery.lean` to their texts.  An intact
file is read as its lines (`QueueNode.recoverText_walText`), so the recovery of a node is the one
that is modelled there.

Main definitions:

* `QueueNode.LogEntry` — the dictionaries that are written to the log;
* `QueueNode.walText` — the file;
* `QueueNode.recoverText` — **`_recover_from_wal` on the text of the file**;
* `QueueNode.Restores` — every message that is not acknowledged is restored.

Main results:

* `QueueNode.recoverText_torn`, `QueueNode.recoverText_glued` — nothing is restored;
* `QueueNode.tornWal_iff` — **a log with a torn line is restored exactly when there is nothing to
  restore**.
-/

import DistSync.JsonTorn
import DistSync.QueueRecovery

set_option relaxedAutoImplicit false
set_option autoImplicit false

namespace QueueNode

open JsonText

/-! ### The file -/

/-- A dictionary that is given to `_append_to_wal`, by a publish or by an ack. -/
inductive LogEntry
  | enqueue (id queue : String) (data : Value) (ts : Atom)
  | ack (msgId : String)

namespace LogEntry

/-- The members of the dictionary. -/
def members : LogEntry → List (String × Value)
  | .enqueue id queue data ts =>
      [("type", .string "ENQUEUE"),
        ("payload", .object
          [("id", .string id), ("queue", .string queue), ("data", data), ("ts", .atom ts)])]
  | .ack msgId => [("type", .string "ACK"), ("msg_id", .string msgId)]

/-- `json.dumps(log_entry)`. -/
def text (entry : LogEntry) : List Char := dumps (.object entry.members)

/-- The line of the log that the dictionary stands for. -/
def walEntry : LogEntry → WalEntry Value
  | .enqueue id queue data ts => .enqueue ⟨id, queue, data, (number? ts.text).getD 0, none⟩
  | .ack msgId => .ack msgId

/-- The first key of a dictionary is `type`. -/
theorem text_eq (entry : LogEntry) : ∃ text, entry.text = '{' :: '"' :: 't' :: text := by
  have hquote : quote "type" = '"' :: 't' :: ['y', 'p', 'e', '"'] := by decide +kernel
  cases entry with
  | enqueue id queue data ts =>
      exact ⟨_, by rw [LogEntry.text, members, dumps, dumpsMembers, hquote]; rfl⟩
  | ack msgId => exact ⟨_, by rw [LogEntry.text, members, dumps, dumpsMembers, hquote]; rfl⟩

theorem newline_notMem_text (entry : LogEntry) : '\n' ∉ entry.text :=
  newline_notMem_dumps _

end LogEntry

/-- The file after the given dictionaries have been appended. -/
def walText (entries : List LogEntry) : List Char :=
  entries.flatMap fun entry => entry.text ++ ['\n']

/-! ### Recovery -/

/-- The message in a `payload` that was written by a publish. -/
def payloadMessage (payload : Value) : Option (Message Value) :=
  match payload.string? "id", payload.string? "queue", payload.get? "data", payload.get? "ts" with
  | some id, some queue, some data, some (.atom ts) =>
      some ⟨id, queue, data, (number? ts.text).getD 0, none⟩
  | _, _, _, _ => none

/-- What the loop of `_recover_from_wal` finds in `entry`: a line of the log, nothing, or a missing
key. -/
def readEntry (entry : Value) : Option (Option (WalEntry Value)) :=
  match entry.get? "type" with
  | none => none
  | some (.string type) =>
      if type = "ENQUEUE" then
        ((entry.get? "payload").bind payloadMessage).map fun msg => some (.enqueue msg)
      else if type = "ACK" then
        (entry.string? "msg_id").map fun msgId => some (.ack msgId)
      else some none
  | some _ => some none

/-- One round of the loop: `none` is an exception. -/
def readTextLine (line : List Char) : Option (Option (WalEntry Value)) :=
  if line.all Char.isWhitespace = true then some none else (loads line).bind readEntry

/-- The loop over the lines of the file. -/
def readText (text : List Char) : Option (List (WalEntry Value)) :=
  ((lines text).mapM readTextLine).map fun entries => entries.filterMap id

/-- **`_recover_from_wal` on the text of the file**: the queues of the node after it. -/
def recoverText (text : List Char) : Dict String (List (Message Value)) :=
  match readText text with
  | some entries => fillQueues (readLines entries) ∅
  -- the exception is logged, and the fill is not reached
  | none => ∅

/-! ### Complete lines -/

theorem readEntry_members (entry : LogEntry) :
    readEntry (.object entry.members) = some (some entry.walEntry) := by
  cases entry with
  | enqueue id queue data ts =>
      simp [readEntry, LogEntry.members, Value.get?, Value.string?, payloadMessage,
        LogEntry.walEntry]
  | ack msgId => simp [readEntry, LogEntry.members, Value.get?, Value.string?, LogEntry.walEntry]

/-- A line that begins with a brace is not blank. -/
theorem readTextLine_brace (line : List Char) :
    readTextLine ('{' :: line) = (loads ('{' :: line)).bind readEntry :=
  if_neg (by simp)

theorem readTextLine_text (entry : LogEntry) :
    readTextLine (entry.text ++ ['\n']) = some (some entry.walEntry) := by
  have hloads : loads (entry.text ++ ['\n']) = some (.object entry.members) :=
    loads_dumps _ isSpace_newline
  obtain ⟨text, htext⟩ := entry.text_eq
  rw [htext] at hloads ⊢
  rw [List.cons_append, readTextLine_brace, ← List.cons_append, hloads, Option.bind_some,
    readEntry_members]

/-- The first line is read first. -/
theorem readText_line {line : List Char} (hline : '\n' ∉ line) (text : List Char) :
    readText (line ++ '\n' :: text) = (readTextLine (line ++ ['\n'])).bind fun entry =>
      (readText text).map fun rest => entry.toList ++ rest := by
  rw [readText, readText, lines_append hline, List.mapM_cons]
  cases readTextLine (line ++ ['\n']) with
  | none => rfl
  | some entry =>
      cases (lines text).mapM readTextLine with
      | none => rfl
      | some rest => cases entry <;> rfl

/-- **Complete lines are read as what was written.** -/
theorem readText_append (entries : List LogEntry) (text : List Char) :
    readText (walText entries ++ text) =
      (readText text).map fun rest => entries.map LogEntry.walEntry ++ rest := by
  induction entries with
  | nil => simp [walText]
  | cons entry entries ih =>
      have hsplit : walText (entry :: entries) ++ text =
          entry.text ++ '\n' :: (walText entries ++ text) := by
        simp [walText]
      rw [hsplit, readText_line entry.newline_notMem_text, readTextLine_text, Option.bind_some, ih,
        Option.map_map]
      rfl

/-- **An intact file is read as its lines.** -/
theorem recoverText_walText (entries : List LogEntry) :
    recoverText (walText entries) =
      fillQueues (readLines (entries.map LogEntry.walEntry)) ∅ := by
  have hread := readText_append entries []
  rw [List.append_nil, show readText [] = some [] from rfl, Option.map_some,
    List.append_nil] at hread
  rw [recoverText, hread]

/-! ### A torn line -/

/-- The beginning of a line that was cut off in the middle of its text. -/
structure Torn (last : LogEntry) (cut : List Char) : Prop where
  isPrefix : cut <+: last.text
  ne_nil : cut ≠ []
  ne_text : cut ≠ last.text

namespace Torn

variable {last : LogEntry} {cut : List Char}

theorem loads_eq_none (h : Torn last cut) : loads cut = none :=
  loads_torn h.isPrefix h.ne_nil h.ne_text

theorem newline_notMem (h : Torn last cut) : '\n' ∉ cut := fun hmem =>
  last.newline_notMem_text (h.isPrefix.subset hmem)

/-- It begins with a brace. -/
theorem exists_brace (h : Torn last cut) : ∃ rest, cut = '{' :: rest := by
  obtain ⟨c, rest, rfl⟩ := List.exists_cons_of_ne_nil h.ne_nil
  obtain ⟨rest', hrest'⟩ := h.isPrefix
  obtain ⟨text, htext⟩ := last.text_eq
  rw [htext, List.cons_append, List.cons.injEq] at hrest'
  exact ⟨rest, by rw [hrest'.1]⟩

theorem readTextLine_eq_none (h : Torn last cut) {rest : List Char}
    (hloads : loads (cut ++ rest) = none) : readTextLine (cut ++ rest) = none := by
  obtain ⟨cut, rfl⟩ := h.exists_brace
  rw [List.cons_append, readTextLine_brace, ← List.cons_append, hloads]
  rfl

end Torn

/-- **Nothing is restored from a log whose last line was cut off.** -/
theorem recoverText_torn (entries : List LogEntry) {last : LogEntry} {cut : List Char}
    (h : Torn last cut) : recoverText (walText entries ++ cut) = ∅ := by
  have hloads : loads (cut ++ []) = none := by
    rw [List.append_nil]
    exact h.loads_eq_none
  have hline := h.readTextLine_eq_none hloads
  rw [List.append_nil] at hline
  have hread : readText cut = none := by
    rw [readText, lines_of_notMem h.newline_notMem h.ne_nil, List.mapM_cons, hline]
    rfl
  rw [recoverText, readText_append, hread]
  rfl

/-- **Nor is anything restored when lines have been written behind it.** -/
theorem recoverText_glued (entries more : List LogEntry) {last : LogEntry} {cut : List Char}
    (h : Torn last cut) : recoverText (walText entries ++ cut ++ walText more) = ∅ := by
  cases more with
  | nil =>
      rw [walText, walText, List.flatMap_nil, List.append_nil]
      exact recoverText_torn entries h
  | cons entry more =>
      obtain ⟨text, htext⟩ := entry.text_eq
      have hloads : loads (cut ++ entry.text ++ ['\n']) = none :=
        loads_glued h.isPrefix h.ne_nil h.ne_text htext (by decide) isSpace_newline
      rw [List.append_assoc] at hloads
      have hline := h.readTextLine_eq_none hloads
      have hnewline : '\n' ∉ cut ++ entry.text := fun hmem =>
        (List.mem_append.1 hmem).elim h.newline_notMem entry.newline_notMem_text
      have hsplit : cut ++ walText (entry :: more) =
          (cut ++ entry.text) ++ '\n' :: walText more := by
        simp [walText]
      have hread : readText (cut ++ walText (entry :: more)) = none := by
        rw [hsplit, readText_line hnewline, List.append_assoc, hline]
        rfl
      rw [recoverText, List.append_assoc, readText_append, hread]
      rfl

/-! ### What is restored -/

/-- The recovery of the file `text` restores every message with an `ENQUEUE` line and no `ACK` line
among the given ones. -/
def Restores (entries : List LogEntry) (text : List Char) : Prop :=
  ∀ m ∈ enqueued (entries.map LogEntry.walEntry), m.id ∉ acked (entries.map LogEntry.walEntry) →
    m ∈ queueOf (recoverText text) m.queue

/-- Every message with an `ENQUEUE` line has an `ACK` line. -/
def AllAcked (entries : List LogEntry) : Prop :=
  ∀ m ∈ enqueued (entries.map LogEntry.walEntry), m.id ∈ acked (entries.map LogEntry.walEntry)

/-- A recovery that restores nothing is right when there is nothing to restore. -/
theorem restores_iff_of_empty {entries : List LogEntry} {text : List Char}
    (h : recoverText text = ∅) : Restores entries text ↔ AllAcked entries := by
  constructor
  · intro hrestores m hm
    by_contra hid
    have hmem := hrestores m hm hid
    rw [h] at hmem
    cases hmem
  · intro hall m hm hid
    exact absurd (hall m hm) hid

/-- **A log with a torn line is restored exactly when there is nothing to restore.**  The log has
any complete lines, and the beginning of one more line, which `json.loads` does not read.  The
first start restores the messages that are not acknowledged if and only if there are none; and a
later start, after any further appends, restores those of all complete lines, before and after the
crash, if and only if there are none. -/
theorem tornWal_iff (entries more : List LogEntry) {last : LogEntry} {cut : List Char}
    (h : Torn last cut) :
    loads cut = none ∧
    (Restores entries (walText entries ++ cut) ∧
        Restores (entries ++ more) (walText entries ++ cut ++ walText more) ↔
      AllAcked entries ∧ AllAcked (entries ++ more)) := by
  refine ⟨h.loads_eq_none, and_congr ?_ ?_⟩
  · exact restores_iff_of_empty (recoverText_torn entries h)
  · exact restores_iff_of_empty (recoverText_glued entries more h)

/-- The number zero. -/
def zero : Atom := ⟨['0'], by decide⟩

/-- The lines of a message, and of its ack. -/
def publishedJob : LogEntry := .enqueue "worker-1" "jobs" (.atom zero) zero

def ackedJob : LogEntry := .ack "worker-1"

theorem torn_brace (last : LogEntry) : Torn last ['{'] := by
  obtain ⟨text, htext⟩ := last.text_eq
  refine ⟨?_, List.cons_ne_nil _ _, ?_⟩
  · rw [htext]
    exact ⟨_, rfl⟩
  · rw [htext]
    exact nofun

/-- A message and its ack, the first character of another ack, and the line of this ack. -/
theorem tornWal_iff_ackedJob :
    Restores [publishedJob, ackedJob] (walText [publishedJob, ackedJob] ++ ['{']) ∧
    Restores [publishedJob, ackedJob, ackedJob]
      (walText [publishedJob, ackedJob] ++ ['{'] ++ walText [ackedJob]) := by
  have hacked : AllAcked [publishedJob, ackedJob] ∧
      AllAcked ([publishedJob, ackedJob] ++ [ackedJob]) := by
    constructor <;> rintro m hm <;> cases List.mem_singleton.1 hm <;> exact List.mem_cons_self
  exact (tornWal_iff [publishedJob, ackedJob] [ackedJob] (torn_brace ackedJob)).2.2 hacked

/-- A message that is not acknowledged is lost when the next line is cut off. -/
theorem tornWal_loses : ¬ ∀ (entries more : List LogEntry) (last : LogEntry) (cut : List Char),
    Torn last cut → Restores entries (walText entries ++ cut) ∧
      Restores (entries ++ more) (walText entries ++ cut ++ walText more) := by
  intro h
  have hrestores := (h [publishedJob] [] ackedJob ['{'] (torn_brace ackedJob)).1
  have hmem := hrestores _ List.mem_cons_self List.not_mem_nil
  rw [recoverText_torn [publishedJob] (torn_brace ackedJob)] at hmem
  cases hmem

end QueueNode
