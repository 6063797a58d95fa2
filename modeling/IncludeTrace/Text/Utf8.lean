/-!
# Bytes, text and UTF-8

Files, paths and arguments are bytes; lines, directives and messages are text.
This module goes between the two.

`encode` writes a text in UTF-8.  Reading is done by a machine that takes one
byte at a time.  Between two characters it is at `start`; inside a character it
knows how many bytes are owed, the range the next one must lie in, and the
value read so far.  The range is narrower than `0x80..0xBF` only after `E0`,
`ED`, `F0` and `F4`.  There it keeps out overlong forms, surrogates and values
above `10FFFF`, so that a sequence is refused at its first impossible byte.

Three readers run the machine.  `decode` replaces: every maximal part that
cannot begin or continue a character becomes one U+FFFD, and the byte that broke
it off is read again as a first byte.  `span` stops before the first such part.
`decode?` accepts only bytes without one.
-/

namespace IncludeTrace

/-- Raw bytes. -/
abbrev Bytes := List UInt8

/-- Decoded text. -/
abbrev Text := List Char

namespace Utf8

/-- The UTF-8 form of a text. -/
def encode (t : Text) : Bytes := t.flatMap String.utf8EncodeChar

/-- The character that stands for bytes that are not UTF-8. -/
def replacement : Char := '\uFFFD'

/-- Where the machine stands between two bytes. -/
inductive State where
  /-- Between characters. -/
  | start
  /-- Inside a character: `owed + 1` bytes are still to come, the next one from `low` to
  `high`, and the bits read so far are `value`. -/
  | owing (owed : Nat) (low high : UInt8) (value : Nat)
deriving DecidableEq

/-- One byte at the start of a character, with the character it completes.  No value for a
byte that begins none. -/
def first? (b : UInt8) : Option (State × Option Char) :=
  if b ≤ 0x7F then some (.start, some (Char.ofNat b.toNat))
  else if b < 0xC2 then none
  else if b ≤ 0xDF then some (.owing 0 0x80 0xBF (b.toNat - 0xC0), none)
  else if b = 0xE0 then some (.owing 1 0xA0 0xBF 0, none)
  else if b = 0xED then some (.owing 1 0x80 0x9F 0xD, none)
  else if b ≤ 0xEF then some (.owing 1 0x80 0xBF (b.toNat - 0xE0), none)
  else if b = 0xF0 then some (.owing 2 0x90 0xBF 0, none)
  else if b ≤ 0xF3 then some (.owing 2 0x80 0xBF (b.toNat - 0xF0), none)
  else if b = 0xF4 then some (.owing 2 0x80 0x8F 4, none)
  else none

/-- One byte, with the character it completes.  No value where UTF-8 cannot hold the byte. -/
def next? : State → UInt8 → Option (State × Option Char)
  | .start, b => first? b
  | .owing owed low high value, b =>
      if low ≤ b ∧ b ≤ high then
        let value := value * 64 + (b.toNat - 0x80)
        match owed with
        | 0 => some (.start, some (Char.ofNat value))
        | n + 1 => some (.owing n 0x80 0xBF value, none)
      else none

/-- One byte of the replacing reader, with the characters it settles.  A byte that breaks off a
character settles one U+FFFD and is read again at the start of the next. -/
def step (s : State) (b : UInt8) : State × Text :=
  match next? s b with
  | some (s', c) => (s', c.toList)
  | none =>
      match s with
      | .start => (.start, [replacement])
      | .owing .. =>
          match first? b with
          | some (s', c) => (s', replacement :: c.toList)
          | none => (.start, [replacement, replacement])

/-- What is settled when the bytes end: a character that was begun becomes one U+FFFD. -/
def State.finish : State → Text
  | .start => []
  | .owing .. => [replacement]

/-- The replacing reader from a state.  `settled` holds the characters so far, newest first. -/
def run (s : State) (settled : Text) : Bytes → Text
  | [] => (s.finish ++ settled).reverse
  | b :: bs =>
      match step s b with
      | (s', cs) => run s' (cs.reverse ++ settled) bs

/-- The text of some bytes, with one U+FFFD for each maximal part that is not UTF-8. -/
def decode (bs : Bytes) : Text := run .start [] bs

/-- The strict reader from a state.  `settled` holds the characters so far, newest first, and
`held` the bytes from the last boundary between characters on. -/
def runStrict (s : State) (settled : Text) (held : Bytes) : Bytes → Text × Bytes
  | [] =>
      match s with
      | .start => (settled.reverse, [])
      | .owing .. => (settled.reverse, held)
  | b :: bs =>
      match next? s b with
      | none => (settled.reverse, held)
      | some (s', none) => runStrict s' settled held bs
      | some (s', some c) => runStrict s' (c :: settled) bs bs

/-- The longest text the bytes begin with, and the bytes after it. -/
def span (bs : Bytes) : Text × Bytes := runStrict .start [] bs bs

/-- The text of some bytes that are UTF-8 throughout. -/
def decode? (bs : Bytes) : Option Text :=
  match span bs with
  | (t, []) => some t
  | (_, _ :: _) => none

@[simp] theorem encode_nil : encode [] = [] := rfl

@[simp] theorem encode_append (s t : Text) : encode (s ++ t) = encode s ++ encode t := by
  simp [encode]

@[simp] theorem decode_nil : decode [] = [] := rfl

/-- What was settled before comes out in front. -/
theorem run_settled (s : State) (settled : Text) (bs : Bytes) :
    run s settled bs = settled.reverse ++ run s [] bs := by
  induction bs generalizing s settled with
  | nil => simp [run]
  | cons b bs ih =>
    simp only [run]
    rw [ih, ih (step s b).1 ((step s b).2.reverse ++ [])]
    simp

end Utf8

end IncludeTrace
