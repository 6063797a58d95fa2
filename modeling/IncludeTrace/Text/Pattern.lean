import IncludeTrace.Text.Alphanumeric
import IncludeTrace.Text.Utf8

/-!
# Patterns

A *pattern* describes a set of texts.  A character stands for itself, a point for
any character, brackets for a choice of characters, and a backslash begins an
escape.  Parentheses make groups, a bar divides alternatives, and `?`, `*` and `+`
behind an item repeat it.

This module tells which texts are patterns: `isPattern`.  It is about patterns that
are written without closing braces.  So there are no counts of repetitions, and a
property or a code point is named by a letter or by digits only.  Places at the edge
of a word and references to groups cannot be described either.

A text is read from left to right.  Every step takes at least one character off it,
so its length is fuel enough.
-/

namespace IncludeTrace

namespace Pattern

/-! ## Escapes -/

/-- What an item stands for. -/
inductive Item where
  /-- One character. -/
  | character (c : Char)
  /-- A set of characters. -/
  | set
  /-- A place between characters. -/
  | place
deriving DecidableEq

/-- The value of a hexadecimal digit. -/
def hexDigit? (c : Char) : Option Nat :=
  if '0' ≤ c ∧ c ≤ '9' then some (c.toNat - '0'.toNat)
  else if 'a' ≤ c.toLower ∧ c.toLower ≤ 'f' then some (c.toLower.toNat - 'a'.toNat + 10)
  else none

/-- Reads a character by the `n` digits of its code point. -/
def hex? (n : Nat) (t : Text) : Option (Item × Text) :=
  match (t.take n).mapM hexDigit? with
  | none => none
  | some ds =>
      let code := ds.foldl (fun v d => 16 * v + d) 0
      if ds.length = n ∧ code.isValidChar then some (.character (Char.ofNat code), t.drop n)
      else none

/-- Reads a property of characters by its letter. -/
def property? : Text → Option (Item × Text)
  | [] => none
  | c :: t => if "clmnpsz".toList.contains c.toLower then some (.set, t) else none

/-- The character a letter behind a backslash stands for. -/
def control? (c : Char) : Option Char :=
  [('a', '\x07'), ('f', '\x0C'), ('n', '\n'), ('r', '\r'), ('t', '\t'), ('v', '\x0B')].lookup c

/-- Reads an escape behind its backslash. -/
def escape? : Text → Option (Item × Text)
  | [] => none
  | c :: t =>
      if c = 'x' then hex? 2 t
      else if c = 'u' then hex? 4 t
      else if c = 'U' then hex? 8 t
      else if c = 'p' ∨ c = 'P' then property? t
      else if "dDsSwW".toList.contains c then some (.set, t)
      else if c = 'A' ∨ c = 'z' then some (.place, t)
      else if c.isAlphanum then (control? c).map (.character ·, t)
      else if c.toNat < 0x80 ∧ c ≠ '<' ∧ c ≠ '>' then some (.character c, t)
      else none

/-! ## Brackets -/

/-- Reads an item between brackets. -/
def member? : Text → Option (Item × Text)
  | [] => none
  | '\\' :: t => escape? t
  | c :: t => some (.character c, t)

/-- Reads an item between brackets, or a range from one character to another. -/
def range? (t : Text) : Option Text :=
  match member? t with
  | none => none
  | some (.place, _) => none
  | some (low, '-' :: rest) =>
      if rest.head? = some ']' ∨ rest.head? = some '-' then some ('-' :: rest)
      else
        match low, member? rest with
        | .character a, some (.character b, rest) => if a ≤ b then some rest else none
        | _, _ => none
  | some (_, rest) => some rest

/-- The names of the classes that are written with colons. -/
def classNames : List Text :=
  ["alnum", "alpha", "ascii", "blank", "cntrl", "digit", "graph", "lower", "print", "punct",
    "space", "upper", "word", "xdigit"].map String.toList

/-- Reads such a class behind its bracket. -/
def className? : Text → Option Text
  | ':' :: t =>
      let t := if t.head? = some '^' then t.tail else t
      let name := t.takeWhile (· != ':')
      match t.drop name.length with
      | ':' :: ']' :: rest => if classNames.contains name then some rest else none
      | _ => none
  | _ => none

/-- The text behind an opening bracket without the characters that mean something else there: a
circumflex, and then dashes or one closing bracket. -/
def opened (t : Text) : Text :=
  match if t.head? = some '^' then t.tail else t with
  | '-' :: t => t.dropWhile (· == '-')
  | ']' :: t => t
  | t => t

/-- Reads up to the bracket that closes the outermost one, with `depth` brackets inside of it
still open. -/
def brackets? : Nat → Nat → Text → Option Text
  | 0, _, _ => none
  | _ + 1, _, [] => none
  | fuel + 1, depth, '[' :: t =>
      match className? t with
      | some t => brackets? fuel depth t
      | none => brackets? fuel (depth + 1) (opened t)
  | _ + 1, 0, ']' :: t => some t
  | fuel + 1, depth + 1, ']' :: t => brackets? fuel depth t
  | fuel + 1, depth, '&' :: '&' :: t => brackets? fuel depth t
  | fuel + 1, depth, '-' :: '-' :: t => brackets? fuel depth t
  | fuel + 1, depth, '~' :: '~' :: t => brackets? fuel depth t
  | fuel + 1, depth, t =>
      match range? t with
      | some t => brackets? fuel depth t
      | none => none

/-! ## Groups -/

/-- What stands behind an opening parenthesis. -/
inductive Head where
  /-- Nothing but flags, so there is no group. -/
  | flags
  /-- A group, and its name if it has one. -/
  | group (name : Option Text)
deriving DecidableEq

/-- Whether a text is the name of a group. -/
def isName : Text → Bool
  | [] => false
  | c :: cs =>
      (c == '_' || (isAlphanumeric c && !c.isDigit))
        && cs.all fun c => isAlphanumeric c || ['_', '.', '[', ']'].contains c

/-- Reads the name of a group. -/
def name? (t : Text) : Option (Head × Text) :=
  let name := t.takeWhile (· != '>')
  match t.drop name.length with
  | _ :: rest => if isName name then some (.group (some name), rest) else none
  | [] => none

/-- Whether a text is made of different flags, a dash before those that are taken away. -/
def isFlags (t : Text) : Bool :=
  t.all ("imsUuRx-".toList.contains ·) && decide t.Nodup && t.getLast? != some '-'

/-- Reads flags. -/
def flags? (t : Text) : Option (Head × Text) :=
  let flags := t.takeWhile fun c => c != ':' && c != ')'
  match t.drop flags.length with
  | ':' :: rest => if isFlags flags then some (.group none, rest) else none
  | ')' :: rest => if isFlags flags ∧ flags ≠ [] then some (.flags, rest) else none
  | _ => none

/-- Reads what stands behind an opening parenthesis. -/
def head? : Text → Option (Head × Text)
  | '?' :: 'P' :: '<' :: t => name? t
  | '?' :: '<' :: t => name? t
  | '?' :: t => flags? t
  | t => some (.group none, t)

/-! ## Patterns -/

/-- Whether the rest of a text ends a pattern, with `depth` groups open and groups named `names`
before it.  `item` tells whether there is something to repeat. -/
def isRest : Nat → Nat → List Text → Bool → Text → Bool
  | 0, _, _, _, _ => false
  | _ + 1, depth, _, _, [] => depth == 0
  | fuel + 1, depth, names, item, c :: t =>
      if c = '(' then
        match head? t with
        | none => false
        | some (.flags, t) => isRest fuel depth names false t
        | some (.group none, t) => isRest fuel (depth + 1) names false t
        | some (.group (some n), t) =>
            !names.contains n && isRest fuel (depth + 1) (n :: names) false t
      else if c = ')' then depth != 0 && isRest fuel (depth - 1) names true t
      else if c = '|' then isRest fuel depth names false t
      else if c = '?' ∨ c = '*' ∨ c = '+' then
        item && isRest fuel depth names true (if t.head? = some '?' then t.tail else t)
      else if c = '\x7b' then false
      else if c = '[' then
        match brackets? (t.length + 1) 0 (opened t) with
        | some t => isRest fuel depth names true t
        | none => false
      else if c = '\\' then
        match escape? t with
        | some (_, t) => isRest fuel depth names true t
        | none => false
      else isRest fuel depth names true t

/-- Whether a text is a pattern. -/
def isPattern (t : Text) : Bool := isRest (t.length + 1) 0 [] false t

end Pattern

end IncludeTrace
