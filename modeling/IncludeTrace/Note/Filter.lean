import IncludeTrace.Note.Rule

/-!
# Which notes are shown

A filter is a list of rules.  Of the rules that fit a note, the most special one
decides, and of two that are equally special the later.  A note that no rule fits is
not shown.

Filters are written as rules with commas between them.  A filter without rules shows
errors, and a filter with a rule that cannot be read is none.
-/

namespace IncludeTrace

/-- Which notes are shown. -/
structure Filter where
  /-- The rules, in the order in which they are written. -/
  rules : List Rule
deriving DecidableEq

namespace Filter

/-- The filter that shows nothing. -/
def off : Filter := ⟨[]⟩

/-- The filter that shows the notes of a level and above. -/
def atLevel (l : Level) : Filter := ⟨[.general (some l)]⟩

/-- The filter a text stands for. -/
def ofText? (t : Text) : Option Filter :=
  match ((t.splitOn ',').filter (· ≠ [])).mapM Rule.ofText? with
  | none => none
  | some [] => some (atLevel .error)
  | some rules => some ⟨rules⟩

/-- The rule that decides about the notes of an origin. -/
def rule? (f : Filter) (o : Origin) : Option Rule :=
  (f.rules.filter (·.fits o)).foldl
    (fun best r => if best.any (·.outranks r) then best else some r) none

/-- Whether a note is shown. -/
def shows (f : Filter) (n : Note) : Bool := (f.rule? n.origin).any (·.threshold.shows n.level)

/-- The filter for a number of requests for more notes.  Without any, the text `wish` decides,
and warnings are shown if it is missing or means nothing. -/
def choose (verbose : Nat) (wish : Option Text) : Filter :=
  match verbose with
  | 0 => (wish.bind ofText?).getD (atLevel .warn)
  | 1 => atLevel .info
  | 2 => atLevel .debug
  | _ => atLevel .trace

end Filter

end IncludeTrace
