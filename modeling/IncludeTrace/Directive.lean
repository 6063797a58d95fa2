import IncludeTrace.Text.Blank
import IncludeTrace.Text.Utf8

/-!
# Include directives

A line is a directive if it begins with `#include`, goes on with at least one
blank, and then has a target of at least one character between a pair of quotes
or a pair of angle brackets.  Nothing may stand in front; anything may follow.
The target ends at the first closing delimiter, so it can hold every character
but that one, line breaks included.

`Directive.ofLine?` recognises directives.  Only quoted ones are followed.
-/

namespace IncludeTrace

/-- The pair of delimiters around a target. -/
inductive Quote where
  /-- `"target"`, looked up next to the including file and followed. -/
  | quoted
  /-- `<target>`, reported and never followed. -/
  | angle
deriving DecidableEq

namespace Quote

/-- The delimiter in front of a target. -/
def opening : Quote → Char
  | .quoted => '"'
  | .angle => '<'

/-- The delimiter behind a target. -/
def closing : Quote → Char
  | .quoted => '"'
  | .angle => '>'

/-- The label in structured output. -/
def label : Quote → Text
  | .quoted => "quoted".toList
  | .angle => "angle_bracket".toList

/-- The pair a character opens. -/
def ofOpening? (c : Char) : Option Quote :=
  if c = '"' then some .quoted else if c = '<' then some .angle else none

end Quote

/-- An include directive. -/
structure Directive where
  /-- The whole line, without its terminator. -/
  line : Text
  /-- What stands between the delimiters. -/
  target : Text
  /-- The delimiters. -/
  quote : Quote
deriving DecidableEq

namespace Directive

/-- What every directive begins with. -/
def keyword : Text := "#include".toList

/-- Whether a trace goes on to the target. -/
def isFollowed (d : Directive) : Bool := d.quote == .quoted

/-- The target at the beginning of a text, with its delimiters. -/
def target? : Text → Option (Text × Quote)
  | [] => none
  | c :: rest =>
      match Quote.ofOpening? c with
      | none => none
      | some q =>
          let inner := rest.takeWhile (· != q.closing)
          let after := rest.dropWhile (· != q.closing)
          if inner.isEmpty || after.isEmpty then none else some (inner, q)

/-- The directive on a line, if the line is one. -/
def ofLine? (line : Text) : Option Directive :=
  match keyword.isPrefixOf? line with
  | none => none
  | some rest =>
      if rest.head?.any isBlank then
        (target? (rest.dropWhile isBlank)).map fun (target, quote) => ⟨line, target, quote⟩
      else none

end Directive

end IncludeTrace
