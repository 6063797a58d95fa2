import IncludeTrace.Path.Order

/-!
# Visited paths

The set of paths a trace has met.  Paths with the same components count as one,
and the first spelling is kept.  Paths are only ever added, oldest first, and
`sorted` lists them in the order of paths.
-/

namespace IncludeTrace

/-- A set of paths, where paths with the same components are one. -/
structure Visited where
  /-- The paths as first spelled, oldest first. -/
  paths : List Path
deriving DecidableEq

namespace Visited

/-- No path. -/
def empty : Visited := ⟨[]⟩

/-- Whether a path with the components of `p` is in the set. -/
def contains (v : Visited) (p : Path) : Bool :=
  let key := p.components
  v.paths.any fun q => q.components == key

/-- Whether `p` is in the set already, and the set with it. -/
def containsThenInsert (v : Visited) (p : Path) : Bool × Visited :=
  if v.contains p then (true, v) else (false, ⟨v.paths ++ [p]⟩)

/-- The set with `p`, unless it is there already. -/
def insert (v : Visited) (p : Path) : Visited := (v.containsThenInsert p).2

/-- The number of paths. -/
def size (v : Visited) : Nat := v.paths.length

/-- Whether there is no path. -/
def isEmpty (v : Visited) : Bool := v.paths.isEmpty

/-- The paths in their order. -/
def sorted (v : Visited) : List Path := v.paths.mergeSort Path.atMost

@[simp] theorem contains_empty (p : Path) : empty.contains p = false := rfl

@[simp] theorem containsThenInsert_fst (v : Visited) (p : Path) :
    (v.containsThenInsert p).1 = v.contains p := by
  unfold containsThenInsert
  split <;> simp_all

@[simp] theorem containsThenInsert_snd (v : Visited) (p : Path) :
    (v.containsThenInsert p).2 = v.insert p := rfl

/-- After an insertion the set has the paths it had and the new one. -/
theorem contains_insert (v : Visited) (p q : Path) :
    (v.insert p).contains q = (v.contains q || p.components == q.components) := by
  unfold insert containsThenInsert
  split
  · rename_i h
    by_cases hpq : p.components = q.components
    · have hv : v.contains q = v.contains p := by simp [contains, hpq]
      simp [hv, h, hpq]
    · simp [hpq]
  · simp [contains]

end Visited

end IncludeTrace
