import IncludeTrace.Text.Utf8

/-!
# Decimal numbers

`Decimal.text` writes a number in decimal.  `Decimal.read` reads one that has to
stay below a bound: one `+` may stand in front, leading zeros are allowed, and of
several faults the leftmost counts.  A number is too large as soon as the digits
read so far reach the bound, whatever stands behind them.
-/

namespace IncludeTrace

namespace Decimal

/-- The digits of a number. -/
def text (n : Nat) : Text := Nat.toDigits 10 n

/-- Why a text is not a number below the bound. -/
inductive Fault where
  /-- There is no text. -/
  | empty
  /-- A character is not a digit. -/
  | digit
  /-- The number reaches the bound. -/
  | large
deriving DecidableEq

/-- The wording of a fault. -/
def Fault.text : Fault → Text
  | .empty => "cannot parse integer from empty string".toList
  | .digit => "invalid digit found in string".toList
  | .large => "number too large to fit in target type".toList

/-- The value of a digit. -/
def digit? (c : Char) : Option Nat :=
  if '0' ≤ c ∧ c ≤ '9' then some (c.toNat - '0'.toNat) else none

/-- Reads digits behind those of `n`. -/
def readDigits (bound n : Nat) : Text → Except Fault Nat
  | [] => .ok n
  | c :: cs =>
      match digit? c with
      | none => .error .digit
      | some d => if 10 * n + d < bound then readDigits bound (10 * n + d) cs else .error .large

/-- Reads a number below the bound. -/
def read (bound : Nat) : Text → Except Fault Nat
  | [] => .error .empty
  | ['+'] => .error .digit
  | '+' :: cs => readDigits bound 0 cs
  | cs => readDigits bound 0 cs

/-- Whether a text is an exponent: nothing, or `e`, a sign if there is one, and digits. -/
def isExponent : Text → Bool
  | [] => true
  | e :: t =>
      let digits := if t.head? = some '+' ∨ t.head? = some '-' then t.tail else t
      e.toLower == 'e' && digits ≠ [] && digits.all Char.isDigit

/-- Whether a text without a sign is a number that need not be whole: digits with a point and an
exponent if there are any, or a word for a number that has no digits. -/
def isFraction (t : Text) : Bool :=
  let whole := t.takeWhile Char.isDigit
  let number :=
    match t.drop whole.length with
    | '.' :: rest =>
        let part := rest.takeWhile Char.isDigit
        (whole ≠ [] || part ≠ []) && isExponent (rest.drop part.length)
    | rest => whole ≠ [] && isExponent rest
  number || (["inf", "infinity", "nan"].map String.toList).contains (t.map Char.toLower)

/-- One more than the largest number of a 64-bit word. -/
def wordBound : Nat := 18446744073709551616

end Decimal

end IncludeTrace
