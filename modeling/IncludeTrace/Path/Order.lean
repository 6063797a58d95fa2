import IncludeTrace.Path.Basic

/-!
# The order of paths

Paths are ordered by their components from the front: the root before `here`,
`here` before `up`, `up` before every name, and names by their bytes.  A path
comes before the paths it is the beginning of.
-/

namespace IncludeTrace

namespace Component

/-- The place of a component among those of other kinds. -/
def rank : Component → Nat
  | .root => 0
  | .here => 1
  | .up => 2
  | .name _ => 3

/-- The order of two components. -/
def order : Component → Component → Ordering
  | .name m, .name n => compare m n
  | c, d => compare c.rank d.rank

instance : Ord Component := ⟨order⟩

end Component

/-- Whether a path comes before another or has the same components. -/
def Path.atMost (p q : Path) : Bool := (compare p.components q.components).isLE

end IncludeTrace
