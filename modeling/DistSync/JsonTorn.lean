/-
**JSON texts that are cut off, and files of lines.**

A program that appends one JSON text after the other to a file may be stopped in the middle of a
text.  When the texts are objects, the reader then is inside the object at the end of the file
(`JsonText.Inside`), and fails; and when the program is started again and writes the next object
behind the rest, the reader fails as well.  Where a value may stand, the second object becomes a
part of the first one, which stays open; within a string, its first quotation mark ends this string,
and the first key of the object stands where a comma or a bracket should; anywhere else its brace is
an error.

Main definitions:

* `JsonText.Inside` — the reader is inside an array or an object;
* `JsonText.lines` — the lines of a file, with their ends.

Main results:

* `JsonText.Inside.run` — **one leaves an array or an object only by its end**;
* `JsonText.loads_torn` — **an object that is cut off is not read**;
* `JsonText.loads_glued` — **nor is it with another object behind it**;
* `JsonText.lines_append` — a line that is complete.
-/

import DistSync.JsonText

set_option relaxedAutoImplicit false
set_option autoImplicit false

namespace JsonText

/-! ### Texts that are cut off -/

/-- A key is inside an object. -/
def Role.isOpen : Role → Prop
  | .value => False
  | .key _ => True

/-- The places in an array or an object that need not show on the stack. -/
def Mode.isOpen : Mode → Prop
  | .value | .word _ => False
  | .string role _ | .escape role _ | .unicode role _ _ _ => role.isOpen
  | _ => True

/-- The reader is inside an array or an object. -/
def Inside : State → Prop
  | .done _ => False
  | .reading [] mode => mode.isOpen
  | .reading (_ :: _) _ => True

theorem inside_of_isOpen {stack : List Frame} {mode : Mode} (h : mode.isOpen) :
    Inside (.reading stack mode) := by
  cases stack with
  | nil => exact h
  | cons frame stack => trivial

theorem Inside.change {stack : List Frame} {mode mode' : Mode} (h : Inside (.reading stack mode))
    (hmode : mode.isOpen → mode'.isOpen) : Inside (.reading stack mode') := by
  cases stack with
  | nil => exact hmode h
  | cons frame stack => trivial

theorem inside_complete (v : Value) (frame : Frame) (stack : List Frame) :
    Inside (complete v (frame :: stack)) := by
  cases frame <;> exact inside_of_isOpen trivial

theorem inside_or_done_complete (v : Value) (stack : List Frame) :
    Inside (complete v stack) ∨ ∃ v', complete v stack = .done v' := by
  cases stack with
  | nil => exact .inr ⟨v, rfl⟩
  | cons frame stack => exact .inl (inside_complete v frame stack)

theorem inside_beginValue {frame : Frame} {stack : List Frame} {c : Char} {s : State}
    (h : beginValue (frame :: stack) c = some s) : Inside s := by
  unfold beginValue at h
  split_ifs at h <;> cases h <;> trivial

theorem inside_closeString {stack : List Frame} {role : Role} {units units' : List ℕ} {s : State}
    (h : Inside (.reading stack (.string role units)))
    (hclose : closeString stack role units' = some s) : Inside s := by
  obtain ⟨chars, -, rfl⟩ := Option.map_eq_some_iff.1 hclose
  cases role with
  | key members => exact inside_of_isOpen trivial
  | value =>
      cases stack with
      | nil => exact h.elim
      | cons frame stack => exact inside_complete _ frame stack

/-- One leaves an array or an object only by its end. -/
theorem Inside.stepToken {s s' : State} {c : Char} (h : Inside s)
    (hstep : stepToken s c = some s') : Inside s' ∨ ∃ v, s' = .done v := by
  cases s with
  | done v => exact h.elim
  | reading stack mode =>
      simp only [JsonText.stepToken] at hstep
      split at hstep
      · cases hstep
        exact .inl h
      · cases mode with
        | value =>
            cases stack with
            | nil => exact h.elim
            | cons frame stack => exact .inl (inside_beginValue hstep)
        | arrayStart =>
            simp only at hstep
            split_ifs at hstep
            · cases hstep
              exact inside_or_done_complete _ _
            · exact .inl (inside_beginValue hstep)
        | inArray items =>
            simp only at hstep
            split_ifs at hstep <;> cases hstep
            · exact .inl trivial
            · exact inside_or_done_complete _ _
        | objectStart =>
            simp only at hstep
            split_ifs at hstep <;> cases hstep
            · exact .inl (inside_of_isOpen trivial)
            · exact inside_or_done_complete _ _
        | key members =>
            simp only at hstep
            split_ifs at hstep
            cases hstep
            exact .inl (inside_of_isOpen trivial)
        | colon members key =>
            simp only at hstep
            split_ifs at hstep
            cases hstep
            exact .inl trivial
        | inObject members =>
            simp only at hstep
            split_ifs at hstep <;> cases hstep
            · exact .inl (inside_of_isOpen trivial)
            · exact inside_or_done_complete _ _
        | _ => cases hstep

theorem Inside.step {s s' : State} {c : Char} (h : Inside s) (hstep : step s c = some s') :
    Inside s' ∨ ∃ v, s' = .done v := by
  cases s with
  | done v => exact h.elim
  | reading stack mode =>
      cases mode with
      | string role units =>
          simp only [JsonText.step] at hstep
          split_ifs at hstep
          · exact .inl (inside_closeString h hstep)
          · cases hstep
            exact .inl (h.change id)
          · cases hstep
            exact .inl (h.change id)
      | escape role units =>
          simp only [JsonText.step] at hstep
          split_ifs at hstep
          · cases hstep
            exact .inl (h.change id)
          · obtain ⟨e, -, rfl⟩ := Option.map_eq_some_iff.1 hstep
            exact .inl (h.change id)
      | unicode role units code left =>
          obtain ⟨digit, -, rfl⟩ := Option.map_eq_some_iff.1 hstep
          cases left with
          | zero => exact .inl (h.change id)
          | succ left => exact .inl (h.change id)
      | word text =>
          -- a word that is not the whole value is in an array or an object
          cases stack with
          | nil => exact h.elim
          | cons frame stack =>
              simp only [JsonText.step] at hstep
              split_ifs at hstep
              · obtain ⟨s₁, hsettle, htoken⟩ := Option.bind_eq_some_iff.1 hstep
                obtain ⟨a, -, rfl⟩ := Option.map_eq_some_iff.1 hsettle
                exact (inside_complete (.atom a) frame stack).stepToken htoken
              · cases hstep
                exact .inl trivial
      | _ => exact h.stepToken hstep

theorem run_done {v : Value} {text : List Char} {s : State} (h : run (.done v) text = some s) :
    (∀ c ∈ text, isSpace c = true) ∧ s = .done v := by
  induction text with
  | nil => exact ⟨nofun, (Option.some.inj h).symm⟩
  | cons c text ih =>
      obtain ⟨s₁, hstep, hrun⟩ := Option.bind_eq_some_iff.1 h
      obtain ⟨hc, rfl⟩ := step_done hstep
      obtain ⟨htext, hs⟩ := ih hrun
      exact ⟨List.forall_mem_cons.2 ⟨hc, htext⟩, hs⟩

/-- **One leaves an array or an object only by its end**, and then for good. -/
theorem Inside.run {s s' : State} {text : List Char} (h : Inside s)
    (hrun : run s text = some s') : Inside s' ∨ ∃ v, s' = .done v := by
  induction text generalizing s with
  | nil =>
      cases hrun
      exact .inl h
  | cons c text ih =>
      obtain ⟨s₁, hstep, hrun⟩ := Option.bind_eq_some_iff.1 hrun
      rcases h.step hstep with h₁ | ⟨v, rfl⟩
      · exact ih h₁ hrun
      · exact .inr ⟨v, (run_done hrun).2⟩

/-- A text that ends inside is not read. -/
theorem Inside.finish {s : State} (h : Inside s) : finish s = none := by
  cases s with
  | done v => exact h.elim
  | reading stack mode =>
      cases mode with
      | word text =>
          cases stack with
          | nil => exact h.elim
          | cons frame stack =>
              rw [JsonText.finish, settle]
              cases atom? text with
              | none => rfl
              | some a => cases frame <;> rfl
      | _ => rfl

/-- The members of an object end with its brace. -/
theorem exists_dumpsMembers (separator : List Char) (members : List (String × Value)) :
    ∃ text, dumpsMembers separator members = text ++ ['}'] := by
  induction members generalizing separator with
  | nil => exact ⟨[], by rw [dumpsMembers, List.nil_append]⟩
  | cons member members ih =>
      obtain ⟨text, htext⟩ := ih [',', ' ']
      exact ⟨_, by rw [dumpsMembers, htext, ← List.append_assoc]⟩

/-- **The reader is inside an object that is cut off.** -/
theorem inside_of_torn {members : List (String × Value)} {cut : List Char}
    (hcut : cut <+: dumps (.object members)) (hne : cut ≠ [])
    (hproper : cut ≠ dumps (.object members)) :
    ∃ s, run (.reading [] .value) cut = some s ∧ Inside s := by
  obtain ⟨rest, hrest⟩ := hcut
  obtain ⟨s, hs, -⟩ := run_dumps (.object members) []
  rw [← hrest, run_append] at hs
  obtain ⟨s₁, hrun, hrun'⟩ := Option.bind_eq_some_iff.1 hs
  refine ⟨s₁, hrun, ?_⟩
  -- the first character is the brace
  obtain ⟨c, cut, rfl⟩ := List.exists_cons_of_ne_nil hne
  obtain ⟨text, htext⟩ := exists_dumpsMembers [] members
  rw [dumps, htext, List.cons_append, List.cons.injEq] at hrest
  obtain ⟨rfl, hrest⟩ := hrest
  rw [run_cons] at hrun
  obtain ⟨s₂, hfirst, hrun⟩ := Option.bind_eq_some_iff.1 hrun
  have hinside : Inside s₂ := by
    cases hfirst
    trivial
  refine (hinside.run hrun).resolve_right ?_
  rintro ⟨v, rfl⟩
  -- after the value there would be nothing but spaces
  have hspaces := (run_done hrun').1
  rcases List.eq_nil_or_concat rest with rfl | ⟨front, last, rfl⟩
  · refine hproper ?_
    rw [dumps, htext, ← hrest, List.append_nil]
  · have hlast : last = '}' := by
      have h := congrArg List.getLast? hrest
      simpa using h
    have hspace := hspaces last (by simp)
    rw [hlast] at hspace
    cases hspace

/-- **An object that is cut off is not read.** -/
theorem loads_torn {members : List (String × Value)} {cut : List Char}
    (hcut : cut <+: dumps (.object members)) (hne : cut ≠ [])
    (hproper : cut ≠ dumps (.object members)) : loads cut = none := by
  obtain ⟨s, hs, hinside⟩ := inside_of_torn hcut hne hproper
  rw [loads, hs, Option.bind_some, hinside.finish]

/-! ### Objects written behind a text that is cut off -/

/-- No brace follows a value. -/
theorem stepToken_complete (v : Value) (stack : List Frame) :
    stepToken (complete v stack) '{' = none := by
  cases stack with
  | nil => rfl
  | cons frame stack => cases frame <;> rfl

/-- An object in an array or an object does not end it. -/
theorem inside_object {stack : List Frame} {members : List (String × Value)} {s : State}
    (hstack : stack ≠ []) (h : run (.reading stack .value) (dumps (.object members)) = some s) :
    Inside s := by
  obtain ⟨frame, stack, rfl⟩ := List.exists_cons_of_ne_nil hstack
  obtain ⟨s', hs', hsettle⟩ := run_dumps (.object members) (frame :: stack)
  obtain rfl : s' = s := Option.some.inj (hs'.symm.trans h)
  have hinside : Inside (.reading (frame :: stack) .value) := trivial
  refine (hinside.run h).resolve_right ?_
  rintro ⟨v, rfl⟩
  have hcomplete := inside_complete (.object members) frame stack
  rw [← Option.some.inj hsettle] at hcomplete
  exact hcomplete

/-- Behind the second quotation mark of a string there is a delimiter. -/
theorem step_closeString {stack : List Frame} {role : Role} {units : List ℕ} {s s' : State}
    {c : Char} (h : Inside (.reading stack (.string role units)))
    (hclose : closeString stack role (units ++ ['{'.toNat]) = some s)
    (hc : isDelimiter c = false) (hstep : step s c = some s') : False := by
  obtain ⟨chars, -, rfl⟩ := Option.map_eq_some_iff.1 hclose
  have hspace := isSpace_of_not_isDelimiter hc
  have hne : ∀ d, isDelimiter d = true → c ≠ d := by
    rintro d hd rfl
    exact Bool.false_ne_true (hc.symm.trans hd)
  have hcomma : c ≠ ',' := hne _ (by decide)
  have hbracket : c ≠ ']' := hne _ (by decide)
  have hbrace : c ≠ '}' := hne _ (by decide)
  have hcolon : c ≠ ':' := hne _ (by decide)
  cases role with
  | key members => simp [step, stepToken, hspace, hcolon] at hstep
  | value =>
      cases stack with
      | nil => exact h.elim
      | cons frame stack =>
          cases frame <;>
            simp [complete, step, stepToken, hspace, hcomma, hbracket, hbrace] at hstep

/-- **An object that is written behind an open text does not close it.**  In a string, its first
quotation mark ends the string, and its first key follows where a delimiter should. -/
theorem Inside.run_object {s s' : State} {members : List (String × Value)} {c : Char}
    {text : List Char} (h : Inside s)
    (htext : dumps (.object members) = '{' :: '"' :: c :: text) (hc : isDelimiter c = false)
    (hrun : JsonText.run s (dumps (.object members)) = some s') : Inside s' := by
  cases s with
  | done v => exact h.elim
  | reading stack mode =>
      cases mode with
      | value =>
          refine inside_object ?_ hrun
          rintro rfl
          exact h
      | arrayStart =>
          rw [run_arrayStart] at hrun
          exact inside_object (List.cons_ne_nil _ _) hrun
      | string role units =>
          have hbrace : JsonText.step (.reading stack (.string role units)) '{' =
              some (.reading stack (.string role (units ++ ['{'.toNat]))) := rfl
          have hquote : JsonText.step (.reading stack (.string role (units ++ ['{'.toNat]))) '"' =
              closeString stack role (units ++ ['{'.toNat]) := rfl
          rw [htext, run_cons, hbrace, Option.bind_some, run_cons, hquote] at hrun
          obtain ⟨s₁, hclose, hrun⟩ := Option.bind_eq_some_iff.1 hrun
          rw [run_cons] at hrun
          obtain ⟨s₂, hstep, -⟩ := Option.bind_eq_some_iff.1 hrun
          exact (step_closeString h hclose hc hstep).elim
      | escape role units =>
          have hbrace : JsonText.step (.reading stack (.escape role units)) '{' = none := rfl
          rw [htext, run_cons, hbrace] at hrun
          cases hrun
      | unicode role units code left =>
          have hbrace : JsonText.step (.reading stack (.unicode role units code left)) '{' = none :=
            rfl
          rw [htext, run_cons, hbrace] at hrun
          cases hrun
      | word word =>
          cases stack with
          | nil => exact h.elim
          | cons frame stack =>
              have hbrace : JsonText.step (.reading (frame :: stack) (.word word)) '{' = none := by
                rw [JsonText.step, if_pos (by decide), settle]
                cases atom? word with
                | none => rfl
                | some a => exact stepToken_complete (.atom a) (frame :: stack)
              rw [htext, run_cons, hbrace] at hrun
              cases hrun
      | _ =>
          rw [htext, run_cons] at hrun
          cases hrun

/-- A space does not end an array or an object. -/
theorem Inside.step_space {s s' : State} {c : Char} (h : Inside s) (hc : isSpace c = true)
    (hstep : JsonText.step s c = some s') : Inside s' := by
  refine (h.step hstep).resolve_right ?_
  rintro ⟨v, rfl⟩
  cases s with
  | done v => exact h
  | reading stack mode =>
      cases mode with
      | string role units =>
          have hquote : c ≠ '"' := by
            rintro rfl
            cases hc
          simp only [JsonText.step, if_neg hquote] at hstep
          split_ifs at hstep <;> cases hstep
      | escape role units =>
          simp only [JsonText.step] at hstep
          split_ifs at hstep
          · cases hstep
          · obtain ⟨e, -, he⟩ := Option.map_eq_some_iff.1 hstep
            cases he
      | unicode role units code left =>
          obtain ⟨digit, -, hdigit⟩ := Option.map_eq_some_iff.1 hstep
          cases left <;> cases hdigit
      | word text =>
          cases stack with
          | nil => exact h
          | cons frame stack =>
              rw [JsonText.step, if_pos (by rw [isDelimiter, hc, Bool.true_or])] at hstep
              obtain ⟨s₁, hsettle, htoken⟩ := Option.bind_eq_some_iff.1 hstep
              obtain ⟨a, -, rfl⟩ := Option.map_eq_some_iff.1 hsettle
              rw [stepToken_space hc, Option.some.injEq] at htoken
              have hinside := inside_complete (.atom a) frame stack
              rw [htoken] at hinside
              exact hinside
      | _ =>
          have htoken := (stepToken_space hc).symm.trans hstep
          cases htoken

theorem Inside.run_spaces {s s' : State} {spaces : List Char} (h : Inside s)
    (hspaces : ∀ c ∈ spaces, isSpace c = true) (hrun : JsonText.run s spaces = some s') :
    Inside s' := by
  induction spaces generalizing s with
  | nil =>
      cases hrun
      exact h
  | cons c spaces ih =>
      rw [run_cons] at hrun
      obtain ⟨s₁, hstep, hrun⟩ := Option.bind_eq_some_iff.1 hrun
      exact ih (h.step_space (hspaces c List.mem_cons_self) hstep)
        (fun c' hc' => hspaces c' (List.mem_cons_of_mem _ hc')) hrun

/-- **An object that is cut off is not read when another object is written behind it.** -/
theorem loads_glued {members members' : List (String × Value)} {cut text spaces : List Char}
    {c : Char} (hcut : cut <+: dumps (.object members)) (hne : cut ≠ [])
    (hproper : cut ≠ dumps (.object members))
    (htext : dumps (.object members') = '{' :: '"' :: c :: text) (hc : isDelimiter c = false)
    (hspaces : ∀ c ∈ spaces, isSpace c = true) :
    loads (cut ++ dumps (.object members') ++ spaces) = none := by
  obtain ⟨s, hs, hinside⟩ := inside_of_torn hcut hne hproper
  rw [loads, run_append, run_append, hs, Option.bind_some]
  cases hobject : run s (dumps (.object members')) with
  | none => rfl
  | some s₁ =>
      rw [Option.bind_some]
      cases hrest : run s₁ spaces with
      | none => rfl
      | some s₂ =>
          exact ((hinside.run_object htext hc hobject).run_spaces hspaces hrest).finish

/-! ### Files of lines -/

/-- The lines of a file, each with the newline at its end; the last one may have none. -/
def lines : List Char → List (List Char)
  | [] => []
  | c :: text =>
      if c = '\n' then [c] :: lines text
      else
        match lines text with
        | [] => [[c]]
        | line :: rest => (c :: line) :: rest

/-- **A line that is complete.** -/
theorem lines_append {line : List Char} (hline : '\n' ∉ line) (text : List Char) :
    lines (line ++ '\n' :: text) = (line ++ ['\n']) :: lines text := by
  induction line with
  | nil => rfl
  | cons c line ih =>
      rw [List.mem_cons, not_or] at hline
      rw [List.cons_append, lines, if_neg (Ne.symm hline.1), ih hline.2]
      rfl

/-- The end of a line may follow a value. -/
theorem isSpace_newline : ∀ c ∈ ['\n'], isSpace c = true :=
  List.forall_mem_singleton.2 (by decide)

/-- A last line without its end. -/
theorem lines_of_notMem {line : List Char} (hline : '\n' ∉ line) (hne : line ≠ []) :
    lines line = [line] := by
  induction line with
  | nil => exact absurd rfl hne
  | cons c line ih =>
      rw [List.mem_cons, not_or] at hline
      rw [lines, if_neg (Ne.symm hline.1)]
      cases line with
      | nil => rfl
      | cons d line => rw [ih hline.2 (List.cons_ne_nil _ _)]

end JsonText
