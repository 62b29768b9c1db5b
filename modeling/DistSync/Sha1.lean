/-
**The digest SHA-1.**

The message is padded to blocks of 512 bits.  A block is sixteen words of 32 bits, which are
extended to eighty, and mixed in eighty rounds into a state of five words; this starts with
constants and is the digest at the end.  Words are numbers below `2 ^ 32`, and a block is one
number.  Of the eighty words only the next sixteen are kept at any time, as the *window*.

Main definitions:

* `Sha1.rounds`, `Sha1.block` — the rounds of a block;
* `Sha1.pad` — the padding of a message;
* `Sha1.digest` — **the digest**, as a number of 160 bits.
-/

import Mathlib.Data.List.Basic

set_option relaxedAutoImplicit false
set_option autoImplicit false

namespace Sha1

/-- The value of `f` at `n`, where `n` is computed before `f` is entered.  The state of one round
occurs several times in the next one; this keeps it a number when a digest is evaluated. -/
def strict {α : Type*} (n : ℕ) (f : ℕ → α) : α :=
  match n with
  | 0 => f 0
  | n + 1 => f (n + 1)

@[simp] theorem strict_eq {α : Type*} (n : ℕ) (f : ℕ → α) : strict n f = f n := by
  cases n <;> rfl

/-- The number of words of 32 bits. -/
def wordSize : ℕ := 0x100000000

/-- The rotation of a word to the left. -/
def leftRotate (word n : ℕ) : ℕ := (word <<< n) % wordSize ||| word >>> (32 - n)

/-- The function of the rounds from `20 * phase` on. -/
def mix (phase b c d : ℕ) : ℕ :=
  match phase with
  | 0 => (b &&& c) ||| ((b ^^^ 0xFFFFFFFF) &&& d)
  | 2 => (b &&& c) ||| (b &&& d) ||| (c &&& d)
  | _ => b ^^^ c ^^^ d

/-- The constant of the rounds from `20 * phase` on. -/
def roundConstant (phase : ℕ) : ℕ :=
  match phase with
  | 0 => 0x5A827999
  | 1 => 0x6ED9EBA1
  | 2 => 0x8F1BBCDC
  | _ => 0xCA62C1D6

/-- The five words of the state. -/
structure State where
  a : ℕ
  b : ℕ
  c : ℕ
  d : ℕ
  e : ℕ

/-- The state before the first block. -/
def initial : State := ⟨0x67452301, 0xEFCDAB89, 0x98BADCFE, 0x10325476, 0xC3D2E1F0⟩

/-- The first word of the window. -/
def firstWord (window : ℕ) : ℕ := window >>> 480

/-- The word after the window, from its words 13, 8, 2 and 0. -/
def nextWord (window : ℕ) : ℕ :=
  leftRotate ((window >>> 64 ^^^ window >>> 224 ^^^ window >>> 416 ^^^ window >>> 480) % wordSize) 1

/-- The window without its first word, and with the word after it. -/
def shift (window : ℕ) : ℕ := (window * wordSize + nextWord window) % (1 <<< 512)

/-- The last `n` of the eighty rounds. -/
def rounds : ℕ → (window a b c d e : ℕ) → State
  | 0, _, a, b, c, d, e => ⟨a, b, c, d, e⟩
  | n + 1, window, a, b, c, d, e =>
      let phase := (79 - n) / 20
      let sum := leftRotate a 5 + mix phase b c d + e + roundConstant phase + firstWord window
      strict (sum % wordSize) fun a' => strict (leftRotate b 30) fun c' =>
        strict (shift window) fun window' => rounds n window' a' a c' c d

/-- The state after a block. -/
def block (s : State) (window : ℕ) : State :=
  let r := rounds 80 window s.a s.b s.c s.d s.e
  ⟨(s.a + r.a) % wordSize, (s.b + r.b) % wordSize, (s.c + r.c) % wordSize,
    (s.d + r.d) % wordSize, (s.e + r.e) % wordSize⟩

/-- The number with the given bytes. -/
def ofBytes (bytes : List ℕ) : ℕ := bytes.foldl (fun n byte => n * 256 + byte) 0

/-- The state after `n` blocks of 64 bytes. -/
def blocks : ℕ → List ℕ → State → State
  | 0, _, s => s
  | n + 1, bytes, s => blocks n (bytes.drop 64) (strict (ofBytes (bytes.take 64)) (block s))

/-- The padded message: a bit, zeros up to eight bytes before the end of a block, and the number of
bits of the message. -/
def pad (message : List ℕ) : List ℕ :=
  message ++ 0x80 :: List.replicate ((119 - message.length % 64) % 64) 0 ++
    (List.range 8).map fun i => (8 * message.length) >>> (8 * (7 - i)) % 256

/-- **The digest**, as a number of 160 bits. -/
def digest (message : List ℕ) : ℕ :=
  let bytes := pad message
  let s := blocks (bytes.length / 64) bytes initial
  (((s.a * wordSize + s.b) * wordSize + s.c) * wordSize + s.d) * wordSize + s.e

end Sha1
