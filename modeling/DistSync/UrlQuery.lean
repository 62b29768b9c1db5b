/-
**Values in the query of a URL.**

A URL is read in three steps: the fragment begins at the first `#` and the query at the first `?`
before it; the query is split at `&`, and each part at its first `=`; then `+` stands for a space and
`%XX` for a byte, and the bytes are the UTF-8 of the text.  Bytes that are no UTF-8 give replacement
characters, so every text can be read, but not every text is read as itself.

Main definitions:

* `UrlQuery.unquotePlus` — the text that a name or value stands for;
* `UrlQuery.lookup` — **the value of a name in the query of a URL**;
* `UrlQuery.Plain`, `UrlQuery.Fit` — texts that stand for themselves, and those that a query gives
  back.

Main results:

* `UrlQuery.unquotePlus_eq_iff` — exactly the plain texts stand for themselves;
* `UrlQuery.lookup_interpolated` — what is read where a text was put into a URL as it is;
* `UrlQuery.lookup_eq_iff` — **exactly the fit texts are read as themselves**.
-/

import DistSync.JsonText
import Mathlib.Data.List.TakeWhile

set_option relaxedAutoImplicit false
set_option autoImplicit false

namespace UrlQuery

open JsonText (hexValue)

/-! ### UTF-8 -/

/-- A character that is not complete yet: the bytes it still needs, what is known of its code, and the
bounds of the next byte. -/
structure Pending where
  needed : ℕ
  code : ℕ
  lower : ℕ
  upper : ℕ

/-- No character has been begun. -/
def idle : Pending := ⟨0, 0, 0x80, 0xbf⟩

/-- The replacement character. -/
def replacement : Char := Char.ofNat 0xfffd

/-- A byte at the beginning of a character. -/
def start (b : ℕ) : List Char × Pending :=
  if b < 0x80 then ([Char.ofNat b], idle)
  else if 0xc2 ≤ b ∧ b ≤ 0xdf then ([], ⟨1, b - 0xc0, 0x80, 0xbf⟩)
  else if 0xe0 ≤ b ∧ b ≤ 0xef then
    -- neither overlong forms nor surrogates
    ([], ⟨2, b - 0xe0, if b = 0xe0 then 0xa0 else 0x80, if b = 0xed then 0x9f else 0xbf⟩)
  else if 0xf0 ≤ b ∧ b ≤ 0xf4 then
    ([], ⟨3, b - 0xf0, if b = 0xf0 then 0x90 else 0x80, if b = 0xf4 then 0x8f else 0xbf⟩)
  else ([replacement], idle)

/-- A byte of a quoted text, or a character that needs no quotes. -/
inductive Piece
  | byte (b : ℕ)
  | char (c : Char)

/-- The text of the pieces. -/
def text : Pending → List Piece → List Char
  | p, [] => if p.needed = 0 then [] else [replacement]
  | p, .char c :: rest => (if p.needed = 0 then [c] else [replacement, c]) ++ text idle rest
  | p, .byte b :: rest =>
      if p.needed = 0 then (start b).1 ++ text (start b).2 rest
      else if p.lower ≤ b ∧ b ≤ p.upper then
        if p.needed = 1 then Char.ofNat (p.code * 64 + (b - 0x80)) :: text idle rest
        else text ⟨p.needed - 1, p.code * 64 + (b - 0x80), 0x80, 0xbf⟩ rest
      else replacement :: (start b).1 ++ text (start b).2 rest

/-- No more characters come out than pieces go in. -/
theorem length_start (b : ℕ) :
    (start b).1.length + (if (start b).2.needed = 0 then 0 else 1) = 1 := by
  unfold start
  split_ifs <;> simp_all [idle]

theorem length_text (p : Pending) (ps : List Piece) :
    (text p ps).length ≤ ps.length + if p.needed = 0 then 0 else 1 := by
  induction ps generalizing p with
  | nil =>
      rw [text]
      split <;> simp
  | cons piece rest ih =>
      cases piece with
      | char c =>
          have hrest := ih idle
          rw [text]
          split <;> simp_all [idle]
      | byte b =>
          have hstart := length_start b
          have hrest := ih (start b).2
          have hidle := ih idle
          have hmore := ih ⟨p.needed - 1, p.code * 64 + (b - 0x80), 0x80, 0xbf⟩
          rw [text]
          by_cases hneeded : p.needed = 0
          · rw [if_pos hneeded, if_pos hneeded, List.length_append, List.length_cons]
            omega
          · rw [if_neg hneeded, if_neg hneeded, List.length_cons]
            split
            · split
              · rw [List.length_cons]
                rw [if_pos (show idle.needed = 0 from rfl)] at hidle
                omega
              · split at hmore <;> omega
            · rw [List.length_append, List.length_cons]
              omega

/-! ### Quoted texts -/

/-- The byte that three characters stand for. -/
def escape (c h l : Char) : Option ℕ :=
  if c = '%' then (hexValue h).bind fun a => (hexValue l).map fun b => 16 * a + b else none

/-- A character that is no escape. -/
def plain (c : Char) : Piece :=
  if c = '+' then .byte 0x20 else if c.toNat < 0x80 then .byte c.toNat else .char c

/-- The pieces of a quoted text. -/
def pieces : List Char → List Piece
  | [] => []
  | [c] => [plain c]
  | [c, d] => [plain c, plain d]
  | c :: h :: l :: rest =>
      match escape c h l with
      | some b => .byte b :: pieces rest
      | none => plain c :: pieces (h :: l :: rest)

/-- The text has an escape. -/
def hasEscape : List Char → Bool
  | c :: h :: l :: rest => (escape c h l).isSome || hasEscape (h :: l :: rest)
  | _ => false

/-- The text that a quoted text stands for. -/
def unquotePlus (s : List Char) : List Char := text idle (pieces s)

/-- A text that stands for itself. -/
def Plain (s : List Char) : Prop := '+' ∉ s ∧ hasEscape s = false

instance : DecidablePred Plain := fun _ => inferInstanceAs (Decidable (_ ∧ _))

theorem length_pieces (s : List Char) : (pieces s).length ≤ s.length := by
  fun_induction pieces s with
  | case1 => exact Nat.le_refl _
  | case2 c => exact Nat.le_refl _
  | case3 c d => exact Nat.le_refl _
  | case4 c h l rest b hescape ih =>
      simp only [List.length_cons]
      omega
  | case5 c h l rest hescape ih =>
      simp only [List.length_cons] at ih ⊢
      omega

/-- An escape is longer than its byte. -/
theorem length_pieces_lt (s : List Char) (h : hasEscape s = true) :
    (pieces s).length < s.length := by
  fun_induction pieces s with
  | case1 => cases h
  | case2 c => cases h
  | case3 c d => cases h
  | case4 c h l rest b hescape ih =>
      have hrest := length_pieces rest
      simp only [List.length_cons]
      omega
  | case5 c h l rest hescape ih =>
      rw [hasEscape, hescape, Option.isSome_none, Bool.false_or] at h
      have hrest := ih h
      simp only [List.length_cons] at hrest ⊢
      omega

theorem pieces_of_not_hasEscape (s : List Char) (h : hasEscape s = false) :
    pieces s = s.map plain := by
  fun_induction pieces s with
  | case1 => rfl
  | case2 c => rfl
  | case3 c d => rfl
  | case4 c h l rest b hescape ih =>
      rw [hasEscape, hescape, Option.isSome_some, Bool.true_or] at h
      cases h
  | case5 c h l rest hescape ih =>
      rw [hasEscape, hescape, Option.isSome_none, Bool.false_or] at h
      rw [ih h]
      rfl

/-- A text without escapes stands for itself, but for its plus signs. -/
theorem text_map_plain (s : List Char) :
    text idle (s.map plain) = s.map fun c => if c = '+' then ' ' else c := by
  induction s with
  | nil => rfl
  | cons c s ih =>
      rw [List.map_cons, List.map_cons, ← ih, plain]
      split
      · rfl
      · split
        · next hascii =>
            rw [text, if_pos (show idle.needed = 0 from rfl), start, if_pos hascii, Char.ofNat_toNat]
            rfl
        · rfl

/-- **Exactly the plain texts stand for themselves.** -/
theorem unquotePlus_eq_iff (s : List Char) : unquotePlus s = s ↔ Plain s := by
  constructor
  · intro heq
    have hescape : hasEscape s = false := by
      -- an escape would make the text shorter
      by_contra hsome
      have hless := length_pieces_lt s (Bool.eq_true_of_not_eq_false hsome)
      have hlength := length_text idle (pieces s)
      rw [show text idle (pieces s) = s from heq, if_pos (show idle.needed = 0 from rfl)] at hlength
      omega
    refine ⟨fun hplus => ?_, hescape⟩
    rw [unquotePlus, pieces_of_not_hasEscape s hescape, text_map_plain] at heq
    have hfix := List.map_inj_left.1 (heq.trans (List.map_id s).symm) '+' hplus
    cases hfix
  · rintro ⟨hplus, hescape⟩
    rw [unquotePlus, pieces_of_not_hasEscape s hescape, text_map_plain]
    have hsame : ∀ c ∈ s, (if c = '+' then ' ' else c) = id c :=
      fun c hc => if_neg fun heq : c = '+' => hplus (heq ▸ hc)
    rw [List.map_congr_left hsame, List.map_id]

/-! ### Queries -/

/-- The query of a URL. -/
def query (url : List Char) : List Char :=
  ((url.takeWhile (· ≠ '#')).dropWhile (· ≠ '?')).drop 1

/-- The names and values of a query. -/
def parameters (query : List Char) : List (List Char × List Char) :=
  (query.splitOn '&').map fun part =>
    (unquotePlus (part.takeWhile (· ≠ '=')), unquotePlus ((part.dropWhile (· ≠ '=')).drop 1))

/-- **The value of a name in the query of a URL**, the first one if there are more. -/
def lookup (name url : List Char) : Option (List Char) :=
  ((parameters (query url)).find? fun parameter => decide (parameter.1 = name)).map Prod.snd

/-- A text that is read as itself where it is put into a query. -/
def Fit (s : List Char) : Prop := '#' ∉ s ∧ '&' ∉ s ∧ Plain s

instance : DecidablePred Fit := fun _ => inferInstanceAs (Decidable (_ ∧ _ ∧ _))

/-- A name that stands for itself, and ends at the equals sign. -/
structure Name (name : List Char) : Prop where
  fit : Fit name
  noEquals : '=' ∉ name

theorem takeWhile_append_of_not_mem {c : Char} {l r : List Char} (h : c ∉ l) :
    (l ++ r).takeWhile (· ≠ c) = l ++ r.takeWhile (· ≠ c) :=
  List.takeWhile_append_of_pos fun x hx => by simpa using fun heq : x = c => h (heq ▸ hx)

theorem dropWhile_append_of_not_mem {c : Char} {l r : List Char} (h : c ∉ l) :
    (l ++ r).dropWhile (· ≠ c) = r.dropWhile (· ≠ c) :=
  List.dropWhile_append_of_pos fun x hx => by simpa using fun heq : x = c => h (heq ▸ hx)

theorem not_mem_takeWhile (c : Char) (s : List Char) : c ∉ s.takeWhile (· ≠ c) := fun hmem => by
  simpa using List.mem_takeWhile_imp hmem

/-- The first part of a query. -/
theorem splitOn_eq_cons (s : List Char) :
    ∃ rest, s.splitOn '&' = s.takeWhile (· ≠ '&') :: rest := by
  rw [List.splitOn_eq_splitOnP]
  have hfirst : ∀ c ∈ s.takeWhile (· ≠ '&'), (c == '&') = false := fun c hc => by
    simpa using List.mem_takeWhile_imp hc
  have hsplit := List.takeWhile_append_dropWhile (p := (· ≠ '&')) (l := s)
  cases hrest : s.dropWhile (· ≠ '&') with
  | nil =>
      rw [hrest, List.append_nil] at hsplit
      refine ⟨[], ?_⟩
      conv_lhs => rw [← hsplit]
      exact List.splitOnP_eq_singleton hfirst
  | cons c rest =>
      rw [hrest] at hsplit
      have hc : (c == '&') = true := by
        have hhead := List.head?_dropWhile_not (· ≠ '&') s
        rw [hrest] at hhead
        simpa using hhead
      refine ⟨rest.splitOnP (· == '&'), ?_⟩
      conv_lhs => rw [← hsplit]
      exact List.splitOnP_append_cons_of_forall_mem hfirst c hc rest

/-- **What is read where a text was put into a URL as it is**: the fragment or the next parameter
begins in it, and the rest is unquoted. -/
theorem lookup_interpolated {base name : List Char} (s : List Char) (hmark : '?' ∉ base)
    (hfragment : '#' ∉ base) (hname : Name name) :
    lookup name (base ++ '?' :: name ++ '=' :: s) =
      some (unquotePlus ((s.takeWhile (· ≠ '#')).takeWhile (· ≠ '&'))) := by
  have hquery : query (base ++ '?' :: name ++ '=' :: s) =
      name ++ '=' :: s.takeWhile (· ≠ '#') := by
    have hbefore : '#' ∉ base ++ '?' :: name ++ ['='] := by
      simp [hfragment, hname.fit.1]
    rw [query, show base ++ '?' :: name ++ '=' :: s = (base ++ '?' :: name ++ ['=']) ++ s by simp,
      takeWhile_append_of_not_mem hbefore, List.append_assoc, List.append_assoc,
      dropWhile_append_of_not_mem hmark]
    simp
  obtain ⟨rest, hsplit⟩ := splitOn_eq_cons (name ++ '=' :: s.takeWhile (· ≠ '#'))
  have hpart : (name ++ '=' :: s.takeWhile (· ≠ '#')).takeWhile (· ≠ '&') =
      name ++ '=' :: (s.takeWhile (· ≠ '#')).takeWhile (· ≠ '&') := by
    rw [takeWhile_append_of_not_mem hname.fit.2.1, List.takeWhile_cons_of_pos (by decide)]
  rw [lookup, parameters, hquery, hsplit, hpart, List.map_cons, List.find?_cons_of_pos]
  · rw [dropWhile_append_of_not_mem hname.noEquals]
    simp
  · rw [takeWhile_append_of_not_mem hname.noEquals]
    simp [(unquotePlus_eq_iff name).2 hname.fit.2.2]

/-- **Exactly the fit texts are read as themselves.** -/
theorem lookup_eq_iff {base name : List Char} (s : List Char) (hmark : '?' ∉ base)
    (hfragment : '#' ∉ base) (hname : Name name) :
    lookup name (base ++ '?' :: name ++ '=' :: s) = some s ↔ Fit s := by
  rw [lookup_interpolated s hmark hfragment hname, Option.some_inj]
  constructor
  · intro heq
    -- nothing can be cut off, since what is read is not longer than what is left
    have hlength : ((s.takeWhile (· ≠ '#')).takeWhile (· ≠ '&')).length = s.length := by
      refine Nat.le_antisymm (((List.takeWhile_sublist _).trans
        (List.takeWhile_sublist _)).length_le) ?_
      have hshorter := length_text idle (pieces ((s.takeWhile (· ≠ '#')).takeWhile (· ≠ '&')))
      have hpieces := length_pieces ((s.takeWhile (· ≠ '#')).takeWhile (· ≠ '&'))
      rw [show text idle _ = s from heq, if_pos (show idle.needed = 0 from rfl)] at hshorter
      omega
    have hwhole := ((List.takeWhile_sublist _).trans
      (List.takeWhile_sublist _)).eq_of_length hlength
    have hfragment' : s.takeWhile (· ≠ '#') = s :=
      (List.takeWhile_sublist _).eq_of_length (Nat.le_antisymm (List.takeWhile_sublist _).length_le
        (hlength ▸ (List.takeWhile_sublist _).length_le))
    refine ⟨fun hmem => ?_, fun hmem => ?_, (unquotePlus_eq_iff s).1 ?_⟩
    · exact not_mem_takeWhile '#' s (hfragment'.symm ▸ hmem)
    · exact not_mem_takeWhile '&' _ (hwhole.symm ▸ hmem)
    · rwa [hwhole] at heq
  · rintro ⟨hfragment, hand, hplain⟩
    have hsame : ∀ {c : Char} {l : List Char}, c ∉ l → l.takeWhile (· ≠ c) = l := by
      intro c l hnot
      have happend := takeWhile_append_of_not_mem (r := []) hnot
      simpa using happend
    rw [hsame hfragment, hsame hand]
    exact (unquotePlus_eq_iff s).2 hplain

end UrlQuery
