import IncludeTrace.Text.Utf8

/-!
# Text on a terminal

A terminal does not show every character it is sent.  An escape character begins
a *control sequence*, and what belongs to the sequence is not shown.  There are
four kinds of them.

* short: the escape character, any number of marks (U+0020 to U+002F) and one
  more character.
* control: behind `[`, up to a character from U+0040 on.
* command: behind `]`, up to a bell.
* string: behind `X`, `^` or `_`, or behind `P` and a head that ends like a
  control, up to the byte `9C`, which can only be met inside of a character.

An escape character inside of a sequence begins the next one, and the characters
U+0018 and U+001A end one of any kind.  A short sequence and a control are also
given up at a tabulator or the end of a line, which is shown.  Other control
characters are never shown, nor are the characters beyond ASCII in a sequence.

`Terminal.plain` is what is shown of a text.  `Terminal.spelled` goes the other
way: it shows the characters that a terminal could act on, spelled out.
-/

namespace IncludeTrace

namespace Terminal

/-! ## Control sequences -/

/-- Where in a control sequence a terminal is. -/
inductive State where
  /-- In none. -/
  | ground
  /-- Behind the escape character. -/
  | escape
  /-- Behind the marks of a short sequence. -/
  | mark
  /-- In a control. -/
  | control
  /-- In a command. -/
  | command
  /-- At the head of a string. -/
  | head
  /-- Behind a number in the head of a string. -/
  | headNumber
  /-- Behind a mark in the head of a string. -/
  | headMark
  /-- In a string. -/
  | string
deriving DecidableEq

/-- Whether a character moves the place of writing: the tabulator and what ends lines. -/
def isLayout (c : Char) : Bool := c == '\t' || c == '\n' || c == '\x0C' || c == '\r'

/-- Whether a character is shown outside of control sequences. -/
def isShown (c : Char) : Bool := (0x20 ≤ c.toNat && c.toNat != 0x7F) || isLayout c

/-- Whether the byte that ends strings is met in a character. -/
def endsString (c : Char) : Bool := (Utf8.encode [c]).contains 0x9C

/-- Where a terminal is behind a character that can be printed. -/
def State.print (s : State) (c : Char) : State :=
  match s with
  | .ground => .ground
  | .escape =>
      if c < '0' then .mark
      else if c = '[' then .control
      else if c = ']' then .command
      else if c = 'P' then .head
      else if c = 'X' ∨ c = '^' ∨ c = '_' then .string
      else .ground
  | .mark => if c < '0' then .mark else .ground
  | .control => if c < '@' then .control else .ground
  | .command => .command
  | .head => if c < '0' then .headMark else if c < '@' then .headNumber else .string
  | .headNumber => if c < '0' then .headMark else if c < '<' then .headNumber else .string
  | .headMark => if c < '0' then .headMark else .string
  | .string => .string

/-- Where a terminal is behind a character that cannot be printed, or is beyond ASCII. -/
def State.obey (s : State) (c : Char) : State :=
  match s with
  | .escape | .mark | .control => if isLayout c then .ground else s
  | .command => if c = '\x07' then .ground else s
  | .string => if endsString c then .ground else s
  | _ => s

/-- Where a terminal is behind a character. -/
def State.next (s : State) (c : Char) : State :=
  if c = '\x1B' then .escape
  else if c = '\x18' ∨ c = '\x1A' then .ground
  else if ' ' ≤ c ∧ c ≤ '~' then s.print c
  else s.obey c

/-- Whether a terminal shows a character. -/
def State.shows (s : State) (c : Char) : Bool :=
  match s with
  | .ground => isShown c
  | .escape | .mark | .control => isLayout c
  | _ => false

/-- What a terminal shows of a text. -/
def plainFrom : State → Text → Text
  | _, [] => []
  | s, c :: cs => if s.shows c then c :: plainFrom (s.next c) cs else plainFrom (s.next c) cs

/-- What is shown of a text. -/
def plain (t : Text) : Text := plainFrom .ground t

/-! ## Spelling out -/

/-- A character, spelled out if it is the escape character, the bell, the backspace, the form
feed, the delete character or one of the control characters beyond ASCII. -/
def spell (c : Char) : Text :=
  let digits := [Nat.digitChar (c.toNat / 16), Nat.digitChar (c.toNat % 16)]
  if c = '\x1B' ∨ c = '\x07' ∨ c = '\x08' ∨ c = '\x0C' ∨ c = '\x7F' then "\\x".toList ++ digits
  else if 0x80 ≤ c.toNat ∧ c.toNat ≤ 0x9F then "\\u\x7b".toList ++ digits ++ "\x7d".toList
  else [c]

/-- A text with such characters spelled out. -/
def spelled (t : Text) : Text := t.flatMap spell

end Terminal

end IncludeTrace
