/-
**JSON texts: a writer, and a reader that takes one character at a time.**

The writer is `json.dumps` with its default settings: `", "` and `": "` between the parts, and every
character of a string outside the printable ASCII ones written as an escape.  The reader is
`json.loads`, as a machine that goes from one character to the next with a stack of the arrays and
objects that are open; so the machine can be stopped in the middle of a text, and it is a question
about its state what a text can be continued with.

Numbers and the names `null`, `true`, `false`, `NaN`, `Infinity` are kept as their texts.  A pair of
escapes for one character outside the basic plane is read as this character; half of such a pair,
which is no character, is not read.

Main definitions:

* `JsonText.Value` — the values;
* `JsonText.dumps` — **the writer**;
* `JsonText.step`, `JsonText.run` — the reader, character by character;
* `JsonText.loads` — **the reader**, for a whole text.

Main results:

* `JsonText.run_dumps` — where the machine is after a value;
* `JsonText.loads_dumps` — **what is written is read back**;
* `JsonText.newline_notMem_dumps` — what is written is one line.
-/

import Mathlib.Data.Rat.Defs
import Mathlib.Algebra.Order.Field.Rat

set_option relaxedAutoImplicit false
set_option autoImplicit false

namespace JsonText

/-! ### Characters -/

/-- The characters between the tokens. -/
def isSpace (c : Char) : Bool := decide (c ∈ [' ', '\t', '\n', '\r'])

/-- The characters that end a number or a name. -/
def isDelimiter (c : Char) : Bool :=
  isSpace c || decide (c ∈ [',', ':', '[', ']', '{', '}', '"'])

/-! ### Numbers and names -/

/-- The value of a sequence of digits. -/
def digitsValue (digits : List Char) : ℕ :=
  digits.foldl (fun n c => 10 * n + (c.toNat - '0'.toNat)) 0

/-- A sequence of digits that is not empty. -/
def natural? (digits : List Char) : Option ℕ :=
  if digits ≠ [] ∧ digits.all Char.isDigit = true then some (digitsValue digits) else none

/-- What follows the digits of a number: nothing, or an exponent. -/
def exponent? : List Char → Option ℤ
  | [] => some 0
  | c :: text =>
      if c = 'e' ∨ c = 'E' then
        match text with
        | '-' :: digits => (natural? digits).map fun n => -(n : ℤ)
        | '+' :: digits => (natural? digits).map fun n => (n : ℤ)
        | digits => (natural? digits).map fun n => (n : ℤ)
      else none

/-- A number without a sign. -/
def unsigned? (text : List Char) : Option ℚ :=
  let whole := text.takeWhile Char.isDigit
  if whole = [] ∨ (whole.head? = some '0' ∧ whole ≠ ['0']) then none
  else
    match text.dropWhile Char.isDigit with
    | '.' :: text =>
        let frac := text.takeWhile Char.isDigit
        if frac = [] then none
        else
          (exponent? (text.dropWhile Char.isDigit)).map fun e =>
            (digitsValue (whole ++ frac) : ℚ) * 10 ^ (e - (frac.length : ℤ))
    | text => (exponent? text).map fun e => (digitsValue whole : ℚ) * 10 ^ e

/-- The value of a number. -/
def number? : List Char → Option ℚ
  | '-' :: text => (unsigned? text).map fun q => -q
  | text => unsigned? text

/-- The names of constants. -/
def constants : List (List Char) :=
  [['n', 'u', 'l', 'l'], ['t', 'r', 'u', 'e'], ['f', 'a', 'l', 's', 'e'], ['N', 'a', 'N'],
    ['I', 'n', 'f', 'i', 'n', 'i', 't', 'y'], ['-', 'I', 'n', 'f', 'i', 'n', 'i', 't', 'y']]

/-- A number or the name of a constant. -/
def isAtom (text : List Char) : Bool :=
  decide (text ≠ []) && text.all (fun c => !isDelimiter c) &&
    (constants.contains text || (number? text).isSome)

/-- A number or a constant, as its text. -/
structure Atom where
  text : List Char
  valid : isAtom text = true

/-- The atom with a given text. -/
def atom? (text : List Char) : Option Atom :=
  if h : isAtom text = true then some ⟨text, h⟩ else none

theorem Atom.atom?_text (a : Atom) : atom? a.text = some a := dif_pos a.valid

theorem Atom.text_ne_nil (a : Atom) : a.text ≠ [] := by
  have h := a.valid
  simp only [isAtom, Bool.and_eq_true, decide_eq_true_eq] at h
  exact h.1.1

theorem Atom.not_isDelimiter (a : Atom) : ∀ c ∈ a.text, isDelimiter c = false := by
  have h := a.valid
  simp only [isAtom, Bool.and_eq_true, List.all_eq_true, Bool.not_eq_true'] at h
  exact h.1.2

/-! ### Values -/

/-- A value of JSON.  If a key of an object occurs twice, the last member counts. -/
inductive Value
  | atom (a : Atom)
  | string (s : String)
  | array (items : List Value)
  | object (members : List (String × Value))

/-- The member of an object with a given key. -/
def Value.get? : Value → String → Option Value
  | .object members, key => ((members.reverse).find? fun member => member.1 = key).map Prod.snd
  | _, _ => none

/-- The member of an object with a given key, if it is a string. -/
def Value.string? (v : Value) (key : String) : Option String :=
  match v.get? key with
  | some (.string s) => some s
  | _ => none

/-! ### The writer -/

/-- A hexadecimal digit. -/
def hexDigit (n : ℕ) : Char := Char.ofNat (if n < 10 then 48 + n else 87 + n)

/-- The escape of a number below `2 ^ 16`. -/
def unicodeEscape (n : ℕ) : List Char :=
  ['\\', 'u', hexDigit (n / 4096 % 16), hexDigit (n / 256 % 16), hexDigit (n / 16 % 16),
    hexDigit (n % 16)]

/-- The numbers by which a character is escaped: its code, or a pair of surrogates. -/
def codeUnits (c : Char) : List ℕ :=
  if c.toNat < 0x10000 then [c.toNat]
  else [0xd800 + (c.toNat - 0x10000) / 0x400, 0xdc00 + (c.toNat - 0x10000) % 0x400]

/-- The characters that have an escape of their own. -/
def shortEscapes : List (Char × Char) :=
  [('"', '"'), ('\\', '\\'), ('\n', 'n'), ('\r', 'r'), ('\t', 't'), ('\x08', 'b'), ('\x0c', 'f')]

/-- A character of a string. -/
def escape (c : Char) : List Char :=
  match shortEscapes.find? fun e => e.1 = c with
  | some e => ['\\', e.2]
  | none =>
      if ' ' ≤ c ∧ c ≤ '~' then [c]
      else (codeUnits c).flatMap unicodeEscape

/-- A string in quotation marks. -/
def quote (s : String) : List Char := '"' :: (s.toList.flatMap escape ++ ['"'])

mutual

/-- **The writer.** -/
def dumps : Value → List Char
  | .atom a => a.text
  | .string s => quote s
  | .array items => '[' :: dumpsItems [] items
  | .object members => '{' :: dumpsMembers [] members

/-- The items of an array, each after the given separator; between them it is a comma. -/
def dumpsItems (separator : List Char) : List Value → List Char
  | [] => [']']
  | item :: items => separator ++ dumps item ++ dumpsItems [',', ' '] items

/-- The members of an object. -/
def dumpsMembers (separator : List Char) : List (String × Value) → List Char
  | [] => ['}']
  | (key, item) :: members =>
      separator ++ quote key ++ [':', ' '] ++ dumps item ++ dumpsMembers [',', ' '] members

end

/-! ### The reader -/

/-- An array or an object that waits for its next value. -/
inductive Frame
  | array (items : List Value)
  | member (members : List (String × Value)) (key : String)

/-- What a string is read for. -/
inductive Role
  | value
  | key (members : List (String × Value))

/-- Where the reader is. -/
inductive Mode
  | value
  | arrayStart
  | inArray (items : List Value)
  | objectStart
  | key (members : List (String × Value))
  | colon (members : List (String × Value)) (key : String)
  | inObject (members : List (String × Value))
  | string (role : Role) (units : List ℕ)
  | escape (role : Role) (units : List ℕ)
  | unicode (role : Role) (units : List ℕ) (code left : ℕ)
  | word (text : List Char)

/-- A state of the reader: inside the values on the stack, or after the whole value. -/
inductive State
  | reading (stack : List Frame) (mode : Mode)
  | done (v : Value)

/-- The reader has read a value. -/
def complete (v : Value) : List Frame → State
  | [] => .done v
  | .array items :: stack => .reading stack (.inArray (items ++ [v]))
  | .member members key :: stack => .reading stack (.inObject (members ++ [(key, v)]))

/-- The character with a given code. -/
def char? (n : ℕ) : Option Char := if h : n.isValidChar then some (Char.ofNatAux n h) else none

/-- The characters of a string. -/
def decodeUnits : List ℕ → Option (List Char)
  | [] => some []
  | [n] => (char? n).map fun c => [c]
  | n :: n' :: units =>
      if (0xd800 ≤ n ∧ n < 0xdc00) ∧ (0xdc00 ≤ n' ∧ n' < 0xe000) then
        (char? (0x10000 + (n - 0xd800) * 0x400 + (n' - 0xdc00))).bind fun c =>
          (decodeUnits units).map (c :: ·)
      else (char? n).bind fun c => (decodeUnits (n' :: units)).map (c :: ·)

/-- The value of a hexadecimal digit. -/
def hexValue (c : Char) : Option ℕ :=
  if '0' ≤ c ∧ c ≤ '9' then some (c.toNat - 48)
  else if 'a' ≤ c ∧ c ≤ 'f' then some (c.toNat - 87)
  else if 'A' ≤ c ∧ c ≤ 'F' then some (c.toNat - 55)
  else none

/-- The second quotation mark of a string. -/
def closeString (stack : List Frame) (role : Role) (units : List ℕ) : Option State :=
  (decodeUnits units).map fun chars =>
    match role with
    | .value => complete (.string (String.ofList chars)) stack
    | .key members => .reading stack (.colon members (String.ofList chars))

/-- The first character of a value. -/
def beginValue (stack : List Frame) (c : Char) : Option State :=
  if c = '"' then some (.reading stack (.string .value []))
  else if c = '{' then some (.reading stack .objectStart)
  else if c = '[' then some (.reading stack .arrayStart)
  else if isDelimiter c = true then none
  else some (.reading stack (.word [c]))

/-- A number or a name is over when a delimiter comes. -/
def settle : State → Option State
  | .reading stack (.word text) => (atom? text).map fun a => complete (.atom a) stack
  | s => some s

/-- A character between or at the beginning of the tokens. -/
def stepToken (s : State) (c : Char) : Option State :=
  if isSpace c = true then some s
  else
    match s with
    | .done _ => none
    | .reading stack mode =>
        match mode with
        | .value => beginValue stack c
        | .arrayStart =>
            if c = ']' then some (complete (.array []) stack)
            else beginValue (.array [] :: stack) c
        | .inArray items =>
            if c = ',' then some (.reading (.array items :: stack) .value)
            else if c = ']' then some (complete (.array items) stack)
            else none
        | .objectStart =>
            if c = '"' then some (.reading stack (.string (.key []) []))
            else if c = '}' then some (complete (.object []) stack)
            else none
        | .key members =>
            if c = '"' then some (.reading stack (.string (.key members) [])) else none
        | .colon members key =>
            if c = ':' then some (.reading (.member members key :: stack) .value) else none
        | .inObject members =>
            if c = ',' then some (.reading stack (.key members))
            else if c = '}' then some (complete (.object members) stack)
            else none
        | _ => none

/-- **One character.** -/
def step (s : State) (c : Char) : Option State :=
  match s with
  | .reading stack (.string role units) =>
      if c = '"' then closeString stack role units
      else if c = '\\' then some (.reading stack (.escape role units))
      else if c < ' ' then none
      else some (.reading stack (.string role (units ++ [c.toNat])))
  | .reading stack (.escape role units) =>
      if c = 'u' then some (.reading stack (.unicode role units 0 3))
      else
        (('/', '/') :: shortEscapes).find? (fun e => e.2 = c) |>.map fun e =>
          .reading stack (.string role (units ++ [e.1.toNat]))
  | .reading stack (.unicode role units code left) =>
      (hexValue c).map fun digit =>
        match left with
        | 0 => .reading stack (.string role (units ++ [16 * code + digit]))
        | left + 1 => .reading stack (.unicode role units (16 * code + digit) left)
  | .reading stack (.word text) =>
      if isDelimiter c = true then (settle s).bind fun s => stepToken s c
      else some (.reading stack (.word (text ++ [c])))
  | s => stepToken s c

/-- The state after a text. -/
def run (s : State) (text : List Char) : Option State := text.foldlM step s

/-- The value that has been read when the text is over. -/
def finish (s : State) : Option Value :=
  match settle s with
  | some (.done v) => some v
  | _ => none

/-- **The reader.** -/
def loads (text : List Char) : Option Value := (run (.reading [] .value) text).bind finish

@[simp] theorem run_nil (s : State) : run s [] = some s := rfl

@[simp] theorem run_cons (s : State) (c : Char) (text : List Char) :
    run s (c :: text) = (step s c).bind fun s => run s text := rfl

theorem run_append (s : State) (text text' : List Char) :
    run s (text ++ text') = (run s text).bind fun s => run s text' := by
  simp only [run, List.foldlM_append]
  rfl

theorem stepToken_space {s : State} {c : Char} (hc : isSpace c = true) :
    stepToken s c = some s := by
  unfold stepToken
  rw [if_pos hc]

/-! ### Reading what was written: strings -/

theorem hexValue_hexDigit : ∀ n < 16, hexValue (hexDigit n) = some n := by decide

/-- An escape is read as its number. -/
theorem run_unicodeEscape (stack : List Frame) (role : Role) (units : List ℕ) {n : ℕ}
    (hn : n < 0x10000) :
    run (.reading stack (.string role units)) (unicodeEscape n) =
      some (.reading stack (.string role (units ++ [n]))) := by
  have h : ∀ k, hexValue (hexDigit (k % 16)) = some (k % 16) := fun k =>
    hexValue_hexDigit _ (Nat.mod_lt _ (by omega))
  have hsum : 16 * (16 * (16 * (n / 4096 % 16) + n / 256 % 16) + n / 16 % 16) + n % 16 = n := by
    omega
  simp [unicodeEscape, step, h, hsum]

theorem toNat_isValidChar (c : Char) : c.toNat.isValidChar := c.valid

theorem codeUnits_lt (c : Char) : ∀ n ∈ codeUnits c, n < 0x10000 := by
  have hc : c.toNat < 0x110000 := by
    rcases toNat_isValidChar c with h | h <;> omega
  intro n hn
  unfold codeUnits at hn
  split at hn
  · next hsmall =>
      rw [List.mem_singleton.1 hn]
      exact hsmall
  · rcases List.mem_cons.1 hn with hn | hn
    · omega
    · rw [List.mem_singleton.1 hn]
      omega

theorem run_flatMap_unicodeEscape (stack : List Frame) (role : Role) (units : List ℕ)
    {ns : List ℕ} (hns : ∀ n ∈ ns, n < 0x10000) :
    run (.reading stack (.string role units)) (ns.flatMap unicodeEscape) =
      some (.reading stack (.string role (units ++ ns))) := by
  induction ns generalizing units with
  | nil => simp
  | cons n ns ih =>
      rw [List.flatMap_cons, run_append, run_unicodeEscape stack role units (hns n (by simp)),
        Option.bind_some, ih _ fun n' hn' => hns n' (List.mem_cons_of_mem _ hn'),
        List.append_assoc]
      rfl

theorem shortEscapes_spec : ∀ e ∈ shortEscapes,
    e.2 ≠ 'u' ∧ (('/', '/') :: shortEscapes).find? (fun e' => e'.2 = e.2) = some e ∧
      codeUnits e.1 = [e.1.toNat] := by
  decide

/-- What is written for a character is read as its code units. -/
theorem run_escape (stack : List Frame) (role : Role) (units : List ℕ) (c : Char) :
    run (.reading stack (.string role units)) (escape c) =
      some (.reading stack (.string role (units ++ codeUnits c))) := by
  unfold escape
  split
  · next e he =>
      obtain ⟨hu, hfind, hunits⟩ := shortEscapes_spec e (List.mem_of_find?_eq_some he)
      have hc : e.1 = c := by simpa using List.find?_some he
      rw [← hc, hunits]
      simp [step, hu, hfind]
  · next hnone =>
      split
      · next hrange =>
          have hne : ∀ e ∈ shortEscapes, e.1 ≠ c := by simpa using List.find?_eq_none.1 hnone
          have hquote : c ≠ '"' := fun h => hne ('"', '"') (by decide) h.symm
          have hslash : c ≠ '\\' := fun h => hne ('\\', '\\') (by decide) h.symm
          have hsmall : c.toNat < 0x10000 := lt_of_le_of_lt hrange.2 (by decide)
          simp [step, codeUnits, hquote, hslash, hsmall, hrange.1]
      · exact run_flatMap_unicodeEscape stack role units (codeUnits_lt c)

theorem run_flatMap_escape (stack : List Frame) (role : Role) (units : List ℕ)
    (chars : List Char) :
    run (.reading stack (.string role units)) (chars.flatMap escape) =
      some (.reading stack (.string role (units ++ chars.flatMap codeUnits))) := by
  induction chars generalizing units with
  | nil => simp
  | cons c chars ih =>
      rw [List.flatMap_cons, run_append, run_escape, Option.bind_some, ih, List.append_assoc]
      rfl

theorem char?_toNat (c : Char) : char? c.toNat = some c := by
  rw [char?, dif_pos (toNat_isValidChar c)]
  rfl

/-- A character that is not a surrogate stands for itself. -/
theorem decodeUnits_cons {c : Char} (units : List ℕ) :
    decodeUnits (c.toNat :: units) = (decodeUnits units).map (c :: ·) := by
  have hc : ¬ (0xd800 ≤ c.toNat ∧ c.toNat < 0xdc00) := by
    rcases toNat_isValidChar c with h | h <;> omega
  cases units with
  | nil => simp [decodeUnits, char?_toNat]
  | cons n units => simp [decodeUnits, char?_toNat, hc]

/-- **The code units of a string are decoded to its characters.** -/
theorem decodeUnits_flatMap (chars : List Char) :
    decodeUnits (chars.flatMap codeUnits) = some chars := by
  induction chars with
  | nil => rfl
  | cons c chars ih =>
      rw [List.flatMap_cons, codeUnits]
      split
      · rw [List.singleton_append, decodeUnits_cons, ih]
        rfl
      · next hbig =>
          have hc : c.toNat < 0x110000 := by
            rcases toNat_isValidChar c with h | h <;> omega
          have hsum : 0x10000 + (0xd800 + (c.toNat - 0x10000) / 0x400 - 0xd800) * 0x400 +
              (0xdc00 + (c.toNat - 0x10000) % 0x400 - 0xdc00) = c.toNat := by
            omega
          have hpair : (0xd800 ≤ 0xd800 + (c.toNat - 0x10000) / 0x400 ∧
                0xd800 + (c.toNat - 0x10000) / 0x400 < 0xdc00) ∧
              (0xdc00 ≤ 0xdc00 + (c.toNat - 0x10000) % 0x400 ∧
                0xdc00 + (c.toNat - 0x10000) % 0x400 < 0xe000) := by
            omega
          rw [List.cons_append, List.singleton_append, decodeUnits, if_pos hpair, hsum,
            char?_toNat, ih]
          rfl

/-- A string between its quotation marks. -/
theorem run_quote (stack : List Frame) (role : Role) (s : String) :
    run (.reading stack (.string role [])) (s.toList.flatMap escape ++ ['"']) =
      closeString stack role (s.toList.flatMap codeUnits) := by
  rw [run_append, run_flatMap_escape, List.nil_append, Option.bind_some, run_cons]
  simp [step]

@[simp] theorem closeString_value (stack : List Frame) (s : String) :
    closeString stack .value (s.toList.flatMap codeUnits) = some (complete (.string s) stack) := by
  simp [closeString, decodeUnits_flatMap]

@[simp] theorem closeString_key (stack : List Frame) (members : List (String × Value))
    (s : String) :
    closeString stack (.key members) (s.toList.flatMap codeUnits) =
      some (.reading stack (.colon members s)) := by
  simp [closeString, decodeUnits_flatMap]

/-! ### Reading what was written: values -/

@[simp] theorem settle_complete (v : Value) (stack : List Frame) :
    settle (complete v stack) = some (complete v stack) := by
  cases stack with
  | nil => rfl
  | cons frame stack => cases frame <;> rfl

/-- A delimiter is read after the number or the name before it. -/
theorem step_of_settle {s s' : State} {c : Char} (h : settle s = some s')
    (htoken : step s' c = stepToken s' c) (hc : isDelimiter c = true) :
    step s c = stepToken s' c := by
  cases s with
  | done v =>
      cases h
      exact htoken
  | reading stack mode =>
      cases mode with
      | word text =>
          rw [step, if_pos hc, h]
          rfl
      | _ =>
          cases h
          exact htoken

theorem run_word (stack : List Frame) (before text : List Char)
    (htext : ∀ c ∈ text, isDelimiter c = false) :
    run (.reading stack (.word before)) text =
      some (.reading stack (.word (before ++ text))) := by
  induction text generalizing before with
  | nil => simp
  | cons c text ih =>
      have hc : isDelimiter c = false := htext c List.mem_cons_self
      rw [run_cons, step, if_neg (by rw [hc]; exact Bool.false_ne_true), Option.bind_some,
        ih _ fun c' hc' => htext c' (List.mem_cons_of_mem _ hc'), List.append_assoc]
      rfl

theorem isSpace_of_not_isDelimiter {c : Char} (h : isDelimiter c = false) : isSpace c = false := by
  rw [isDelimiter, Bool.or_eq_false_iff] at h
  exact h.1

/-- An atom is a word. -/
theorem run_atom (a : Atom) (stack : List Frame) :
    run (.reading stack .value) a.text = some (.reading stack (.word a.text)) := by
  have hword := a.not_isDelimiter
  cases htext : a.text with
  | nil => exact absurd htext a.text_ne_nil
  | cons c text =>
      rw [htext] at hword
      have hc := hword c List.mem_cons_self
      have hspace := isSpace_of_not_isDelimiter hc
      have hquote : c ≠ '"' := by
        rintro rfl
        cases hc
      have hbrace : c ≠ '{' := by
        rintro rfl
        cases hc
      have hbracket : c ≠ '[' := by
        rintro rfl
        cases hc
      have hfirst : step (.reading stack .value) c = some (.reading stack (.word [c])) := by
        simp [step, stepToken, beginValue, hspace, hquote, hbrace, hbracket, hc]
      rw [run_cons, hfirst, Option.bind_some,
        run_word stack [c] text fun c' hc' => hword c' (List.mem_cons_of_mem _ hc')]
      rfl

/-- What a value begins with. -/
theorem dumps_head (v : Value) :
    ∃ c text, dumps v = c :: text ∧ isSpace c = false ∧ c ≠ ']' := by
  cases v with
  | atom a =>
      cases htext : a.text with
      | nil => exact absurd htext a.text_ne_nil
      | cons c text =>
          have hc := a.not_isDelimiter c (htext ▸ List.mem_cons_self)
          refine ⟨c, text, by rw [dumps, htext], isSpace_of_not_isDelimiter hc, ?_⟩
          rintro rfl
          cases hc
  | string s => exact ⟨'"', _, by rw [dumps, quote], by decide, by decide⟩
  | array items => exact ⟨'[', _, by rw [dumps], by decide, by decide⟩
  | object members => exact ⟨'{', _, by rw [dumps], by decide, by decide⟩

/-- The first item of an array is read like any other. -/
theorem run_arrayStart (v : Value) (stack : List Frame) :
    run (.reading stack .arrayStart) (dumps v) =
      run (.reading (.array [] :: stack) .value) (dumps v) := by
  obtain ⟨c, text, htext, hspace, hbracket⟩ := dumps_head v
  rw [htext, run_cons, run_cons]
  simp [step, stepToken, hspace, hbracket]

/-- A key and its colon. -/
theorem run_key (key : String) (members : List (String × Value)) (stack : List Frame) :
    run (.reading stack (.key members)) (quote key ++ [':', ' ']) =
      some (.reading (.member members key :: stack) .value) := by
  have hfirst : step (.reading stack (.key members)) '"' =
      some (.reading stack (.string (.key members) [])) := rfl
  have hcolon : run (.reading stack (.colon members key)) [':', ' '] =
      some (.reading (.member members key :: stack) .value) := rfl
  rw [run_append, quote, run_cons, hfirst, Option.bind_some, run_quote, closeString_key,
    Option.bind_some, hcolon]

theorem run_objectStart (key : String) (stack : List Frame) :
    run (.reading stack .objectStart) (quote key ++ [':', ' ']) =
      run (.reading stack (.key [])) (quote key ++ [':', ' ']) := rfl

mutual

/-- **A value is read back**, up to the end of the number or name that it may be. -/
theorem run_dumps (v : Value) (stack : List Frame) :
    ∃ s, run (.reading stack .value) (dumps v) = some s ∧
      settle s = some (complete v stack) := by
  match v with
  | .atom a =>
      refine ⟨_, by rw [dumps, run_atom], ?_⟩
      rw [settle, a.atom?_text]
      rfl
  | .string s =>
      have hfirst : step (.reading stack .value) '"' =
          some (.reading stack (.string .value [])) := rfl
      refine ⟨complete (.string s) stack, ?_, settle_complete _ _⟩
      rw [dumps, quote, run_cons, hfirst, Option.bind_some, run_quote, closeString_value]
  | .array items =>
      have hfirst : step (.reading stack .value) '[' = some (.reading stack .arrayStart) := rfl
      refine ⟨complete (.array items) stack, ?_, settle_complete _ _⟩
      rw [dumps, run_cons, hfirst, Option.bind_some]
      match items with
      | [] => rfl
      | item :: items =>
          obtain ⟨s, hs, hsettle⟩ := run_dumps item (.array [] :: stack)
          rw [dumpsItems, List.nil_append, run_append, run_arrayStart, hs, Option.bind_some]
          exact run_dumpsItems items [item] stack hsettle
  | .object members =>
      have hfirst : step (.reading stack .value) '{' = some (.reading stack .objectStart) := rfl
      refine ⟨complete (.object members) stack, ?_, settle_complete _ _⟩
      rw [dumps, run_cons, hfirst, Option.bind_some]
      match members with
      | [] => rfl
      | (key, item) :: members =>
          obtain ⟨s, hs, hsettle⟩ := run_dumps item (.member [] key :: stack)
          rw [dumpsMembers, List.nil_append, run_append, run_append, run_objectStart, run_key,
            Option.bind_some, hs, Option.bind_some]
          exact run_dumpsMembers members [(key, item)] stack hsettle

/-- The items of an array after the first one. -/
theorem run_dumpsItems (items before : List Value) (stack : List Frame) {s : State}
    (hs : settle s = some (.reading stack (.inArray before))) :
    run s (dumpsItems [',', ' '] items) = some (complete (.array (before ++ items)) stack) := by
  match items with
  | [] =>
      rw [dumpsItems, run_cons, step_of_settle hs rfl (by decide), List.append_nil]
      rfl
  | item :: items =>
      have hcomma : run s [',', ' '] = some (.reading (.array before :: stack) .value) := by
        rw [run_cons, step_of_settle hs rfl (by decide)]
        rfl
      obtain ⟨s', hs', hsettle⟩ := run_dumps item (.array before :: stack)
      rw [dumpsItems, run_append, run_append, hcomma, Option.bind_some, hs', Option.bind_some,
        run_dumpsItems items (before ++ [item]) stack hsettle, List.append_assoc]
      rfl

/-- The members of an object after the first one. -/
theorem run_dumpsMembers (members before : List (String × Value)) (stack : List Frame) {s : State}
    (hs : settle s = some (.reading stack (.inObject before))) :
    run s (dumpsMembers [',', ' '] members) =
      some (complete (.object (before ++ members)) stack) := by
  match members with
  | [] =>
      rw [dumpsMembers, run_cons, step_of_settle hs rfl (by decide), List.append_nil]
      rfl
  | (key, item) :: members =>
      have hcomma : run s [',', ' '] = some (.reading stack (.key before)) := by
        rw [run_cons, step_of_settle hs rfl (by decide)]
        rfl
      obtain ⟨s', hs', hsettle⟩ := run_dumps item (.member before key :: stack)
      rw [dumpsMembers, List.append_assoc [',', ' '], run_append, run_append, run_append, hcomma,
        Option.bind_some, run_key, Option.bind_some, hs', Option.bind_some,
        run_dumpsMembers members (before ++ [(key, item)]) stack hsettle, List.append_assoc]
      rfl

end

/-! ### Whole texts -/

theorem finish_of_settle {s : State} {v : Value} (h : settle s = some (.done v)) :
    finish s = some v := by
  rw [finish, h]

/-- Nothing but spaces follows a value. -/
theorem step_done {v : Value} {c : Char} {s : State} (h : step (.done v) c = some s) :
    isSpace c = true ∧ s = .done v := by
  simp only [step, stepToken] at h
  split at h
  · next hc => exact ⟨hc, (Option.some.inj h).symm⟩
  · cases h

theorem run_spaces {s : State} {v : Value} {spaces : List Char}
    (hspaces : ∀ c ∈ spaces, isSpace c = true) (hs : settle s = some (.done v)) :
    ∃ s', run s spaces = some s' ∧ settle s' = some (.done v) := by
  induction spaces generalizing s with
  | nil => exact ⟨s, rfl, hs⟩
  | cons c spaces ih =>
      have hc : isSpace c = true := hspaces c List.mem_cons_self
      have hstep : step s c = some (.done v) := by
        rw [step_of_settle hs rfl (by rw [isDelimiter, hc, Bool.true_or]), stepToken_space hc]
      rw [run_cons, hstep]
      exact ih (fun c' hc' => hspaces c' (List.mem_cons_of_mem _ hc')) rfl

/-- **What is written is read back.** -/
theorem loads_dumps (v : Value) {spaces : List Char} (hspaces : ∀ c ∈ spaces, isSpace c = true) :
    loads (dumps v ++ spaces) = some v := by
  obtain ⟨s, hs, hsettle⟩ := run_dumps v []
  obtain ⟨s', hs', hdone⟩ := run_spaces hspaces hsettle
  rw [loads, run_append, hs, Option.bind_some, hs', Option.bind_some, finish_of_settle hdone]

/-! ### Newlines -/

theorem newline_notMem_escape (c : Char) : '\n' ∉ escape c := by
  have hshort : ∀ e ∈ shortEscapes, '\n' ∉ ['\\', e.2] := by decide
  have hdigit : ∀ n < 16, hexDigit n ≠ '\n' := by decide
  unfold escape
  split
  · next e he => exact hshort e (List.mem_of_find?_eq_some he)
  · split
    · next hrange =>
        intro hmem
        rw [← List.mem_singleton.1 hmem] at hrange
        exact absurd hrange.1 (by decide)
    · intro hmem
      obtain ⟨n, -, hn⟩ := List.mem_flatMap.1 hmem
      have hmod : ∀ k, '\n' ≠ hexDigit (k % 16) := fun k =>
        (hdigit _ (Nat.mod_lt _ (by decide))).symm
      simp [unicodeEscape, hmod] at hn

theorem newline_notMem_quote (s : String) : '\n' ∉ quote s := by
  simp [quote, newline_notMem_escape]

mutual

/-- **A text that was written is one line.** -/
theorem newline_notMem_dumps (v : Value) : '\n' ∉ dumps v := by
  match v with
  | .atom a =>
      rw [dumps]
      intro hmem
      cases a.not_isDelimiter _ hmem
  | .string s =>
      rw [dumps]
      exact newline_notMem_quote s
  | .array items =>
      rw [dumps]
      simpa using newline_notMem_dumpsItems items (by simp)
  | .object members =>
      rw [dumps]
      simpa using newline_notMem_dumpsMembers members (by simp)

theorem newline_notMem_dumpsItems (items : List Value) {separator : List Char}
    (hseparator : '\n' ∉ separator) : '\n' ∉ dumpsItems separator items := by
  match items with
  | [] => simp [dumpsItems]
  | item :: items =>
      have hitem := newline_notMem_dumps item
      have hitems : '\n' ∉ dumpsItems [',', ' '] items :=
        newline_notMem_dumpsItems items (by decide)
      simp [dumpsItems, hseparator, hitem, hitems]

theorem newline_notMem_dumpsMembers (members : List (String × Value)) {separator : List Char}
    (hseparator : '\n' ∉ separator) : '\n' ∉ dumpsMembers separator members := by
  match members with
  | [] => simp [dumpsMembers]
  | (key, item) :: members =>
      have hkey := newline_notMem_quote key
      have hitem := newline_notMem_dumps item
      have hmembers : '\n' ∉ dumpsMembers [',', ' '] members :=
        newline_notMem_dumpsMembers members (by decide)
      simp [dumpsMembers, hseparator, hkey, hitem, hmembers]

end

end JsonText
