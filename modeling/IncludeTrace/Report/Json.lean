import IncludeTrace.Event

/-!
# JSON lines

The form of a trace for programs: one JSON object for each event, on a line of
its own.  An object has texts and numbers as members, in a fixed order, without
blanks.  In a text the quote, the backslash and the characters below U+0020 are
escaped, with the short escapes where there are any, and all else stands for
itself.  So an object never holds a newline.
-/

namespace IncludeTrace

namespace Json

/-- A member's value. -/
inductive Value where
  /-- A text. -/
  | text (t : Text)
  /-- A number. -/
  | number (n : Nat)
deriving DecidableEq

/-- An object, as its members in order. -/
abbrev Object := List (Text × Value)

/-- A character as it stands in a JSON text. -/
def escape (c : Char) : Text :=
  if c = '"' then ['\\', '"']
  else if c = '\\' then ['\\', '\\']
  else if c = '\x08' then ['\\', 'b']
  else if c = '\t' then ['\\', 't']
  else if c = '\n' then ['\\', 'n']
  else if c = '\x0C' then ['\\', 'f']
  else if c = '\r' then ['\\', 'r']
  else if c.toNat < 0x20 then
    ['\\', 'u', '0', '0', Nat.digitChar (c.toNat / 16), Nat.digitChar (c.toNat % 16)]
  else [c]

/-- A text in quotes. -/
def quote (t : Text) : Text := '"' :: t.flatMap escape ++ ['"']

/-- A value as it is written. -/
def Value.render : Value → Text
  | .text t => quote t
  | .number n => Decimal.text n

/-- A member as it is written. -/
def renderMember (m : Text × Value) : Text := quote m.1 ++ ':' :: m.2.render

/-- An object as it is written. -/
def render (o : Object) : Text := '\x7b' :: [','].intercalate (o.map renderMember) ++ ['\x7d']

end Json

namespace Event

/-- The members that only some events have. -/
def details : Event → Json.Object
  | .found _ d =>
      [("line_no".toList, .number d.lineNo), ("line".toList, .text d.directive.line),
        ("target".toList, .text d.directive.target),
        ("quote".toList, .text d.directive.quote.label)]
  | .failed _ stage cause =>
      [("error_kind".toList, .text stage.label), ("message".toList, .text cause.text)]
  | .enter _ | .close _ => []

/-- The object for an event. -/
def object (e : Event) : Json.Object :=
  ("event".toList, .text e.label) :: ("path".toList, .text e.path.display) :: e.details

/-- The line for an event. -/
def json (e : Event) : Text := Json.render e.object ++ "\n".toList

end Event

end IncludeTrace
