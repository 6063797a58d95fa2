import IncludeTrace.Path.Basic

/-!
# Normal forms of paths

A path is put into normal form by its components alone, without asking the file
system.  `here` is dropped.  `up` takes back the name in front of it, stays at
the root, and is kept where nothing can be taken back.  The empty result is
spelled `.`.

A quoted target is looked up next to the file that includes it: `resolve` joins
it to the parent of that file and takes the normal form.
-/

namespace IncludeTrace

namespace Component

/-- One more component behind a normal list, which is given last component first. -/
def push (stack : List Component) : Component → List Component
  | .here => stack
  | .up =>
      match stack with
      | .name _ :: rest => rest
      | .root :: _ => stack
      | _ => .up :: stack
  | c => c :: stack

/-- The normal form of a list of components. -/
def normalForm (cs : List Component) : List Component := (cs.foldl push []).reverse

end Component

namespace Path

/-- The path with the given components, spelled `.` if there are none. -/
def ofNormal : List Component → Path
  | [] => ⟨Component.dot⟩
  | cs => ofComponents cs

/-- The normal form of a path. -/
def normalize (p : Path) : Path := ofNormal (Component.normalForm p.components)

/-- Where a quoted target of the file `source` lies. -/
def resolve (source : Path) (target : Text) : Path :=
  ((source.parent?.getD empty).join (ofText target)).normalize

end Path

end IncludeTrace
