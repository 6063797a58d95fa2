import IncludeTrace.Note.Basic
import IncludeTrace.Text.Blank
import IncludeTrace.Text.Pattern

/-!
# Rules about notes

A *rule* says of some notes which of them are shown.  It names the beginning of an
origin, and the least important level that is shown, or that nothing is.  It can
also ask for a span around the note, or for a field in it.  Notes are made outside
of any span and have one field, their message, without a value to compare.  So a
rule with a span, with another field or with a value fits no note.

A rule is written as a level, or as the beginning of an origin, a scope and a level
behind `=`, each of which may be missing:

    level
    origin[span{field=value}]=level

Without a level everything is shown.  A level is one of six words in any case, or a
number from zero for nothing to five for everything.

Blanks around a rule belong to no part of it when its parts are told apart, but they
are still there when the parts are cut out of the text.  So a blank behind a rule is
part of its level or origin, and blanks in front of it move all parts to the left.
-/

namespace IncludeTrace

/-- The least important level that is shown, if anything is. -/
abbrev Threshold := Option Level

/-- Whether a note of a level is shown. -/
def Threshold.shows (t : Threshold) (l : Level) : Bool := t.any (l.rank ≤ ·.rank)

namespace Threshold

/-- The thresholds, from nothing to everything. -/
def all : List Threshold :=
  [none, some .error, some .warn, some .info, some .debug, some .trace]

/-- The word for a threshold. -/
def word : Threshold → Text
  | none => "off".toList
  | some l => l.name.map Char.toLower

/-- The threshold a text stands for. -/
def ofText? (t : Text) : Option Threshold :=
  match Decimal.read Decimal.wordBound t with
  | .ok n => all[n]?
  | .error _ => all.find? fun th => th.word == t.map Char.toLower

end Threshold

/-! ## Fields -/

/-- A field that a rule asks for. -/
structure Field where
  /-- The name of the field. -/
  name : Text
  /-- What its value is compared with, if it is. -/
  value : Option Text
deriving DecidableEq

namespace Field

/-- Whether a text can be compared with values: it is a pattern, or a number with a sign in
front, which is not one. -/
def isValue (t : Text) : Bool :=
  Pattern.isPattern t || (t.head? == some '+' && Decimal.isFraction t.tail)

/-- The field a text stands for.  A second `=` ends the value. -/
def ofText? (t : Text) : Option Field :=
  let name := t.takeWhile (· != '=')
  match t.drop name.length with
  | [] => some ⟨name, none⟩
  | _ :: t =>
      let value := t.takeWhile (· != '=')
      if isValue value then some ⟨name, some value⟩ else none

/-- Whether notes have a field. -/
def isMessage (f : Field) : Bool := f.name == "message".toList && f.value.isNone

end Field

/-! ## Rules -/

/-- What is shown of some notes. -/
structure Rule where
  /-- What the origin begins with. -/
  target : Text
  /-- The span to be in, if any. -/
  span : Option Text
  /-- The field to have, if any. -/
  field : Option Field
  /-- What is shown. -/
  threshold : Threshold
deriving DecidableEq

namespace Rule

/-- The rule about all notes. -/
def general (t : Threshold) : Rule := ⟨[], none, none, t⟩

/-- Whether an origin can begin with a character. -/
def canBegin (c : Char) : Bool := isAlphanumeric c || c == '-' || c == ':' || c == '_'

/-- A text without the blanks around it. -/
def trimmed (t : Text) : Text := ((t.dropWhile isBlank).reverse.dropWhile isBlank).reverse

/-- The characters of a text from position `i` up to position `j`. -/
def cut (t : Text) (i j : Nat) : Text := (t.drop i).take (j - i)

/-- The position behind `i` of the first character of a text that is one of `cs`, or the end of
the text. -/
def find (cs : List Char) (t : Text) (i : Nat) : Nat :=
  i + ((t.drop i).takeWhile (!cs.contains ·)).length

/-- What is shown by a rule whose level begins at position `i` of the text `t`. -/
def level? (t : Text) (i : Nat) : Option Threshold :=
  match t.drop i with
  | [] => some (some .trace)
  | level => Threshold.ofText? level

/-- The rule with a text for its level.  The text `body` without blanks around it ends behind
the scope, at position `i`, or goes on with the level. -/
def close? (t body target : Text) (span : Option Text) (field : Option Field) (i : Nat) :
    Option Rule :=
  match body.drop i with
  | [] => some ⟨target, span, field, some .trace⟩
  | '=' :: _ => (level? t (i + 1)).map (⟨target, span, field, ·⟩)
  | _ => none

/-- The rule with a field that begins at position `i`. -/
def field? (t body target : Text) (span : Option Text) (i : Nat) : Option Rule :=
  let j := find ['\x7d'] body i
  match body.drop j with
  | '\x7d' :: ']' :: _ =>
      if i = j then none
      else
        match Field.ofText? (cut t i j) with
        | some f => close? t body target span (some f) (j + 2)
        | none => none
  | _ => none

/-- The rule with a scope that begins at position `i`. -/
def scope? (t body target : Text) (i : Nat) : Option Rule :=
  let j := find [']', '\x7b'] body i
  match body.drop j with
  | ']' :: _ => close? t body target (some (cut t i j)) none (j + 1)
  | '\x7b' :: _ => field? t body target (if i = j then none else some (cut t i j)) (j + 1)
  | _ => none

/-- The rule a text stands for. -/
def ofText? (t : Text) : Option Rule :=
  let body := trimmed t
  match body with
  | [] => none
  | '[' :: _ => scope? t body [] 1
  | c :: _ =>
      if canBegin c then
        let i := find ['=', '['] body 0
        match body.drop i with
        | [] =>
            match Threshold.ofText? t with
            | some th => some (general th)
            | none => some ⟨t, none, none, some .trace⟩
        | '=' :: _ => (level? t (i + 1)).map (⟨t.take i, none, none, ·⟩)
        | _ => scope? t body (t.take i) (i + 1)
      else none

/-- Whether a rule fits the notes of an origin. -/
def fits (r : Rule) (o : Origin) : Bool :=
  r.target.isPrefixOf o.name && r.span.isNone && r.field.all Field.isMessage

/-- Whether a rule is more special than another: its origin is longer, or as long and it asks for
a field. -/
def outranks (r s : Rule) : Bool :=
  s.target.length < r.target.length
    || (s.target.length == r.target.length && r.field.isSome && s.field.isNone)

end Rule

end IncludeTrace
