import IncludeTrace.Proofs.Joining

/-!
# Chains of targets

A target is looked up in the directory of the file that includes it, and the path is
put into normal form before the targets of that file are looked up in turn.  So a
normal form is made at every step of a chain of targets.  One normal form at the end
gives the same: the directories of all files on the way are joined as they are
spelled, and only the whole is put into normal form (`foldl_resolve`).

What carries this is a fact about one step.  A path that ends in a name has this name
on top of its stack and the stack of its directory below (`EndsIn.stack_eq`), also
when it was joined to another path (`EndsIn.stack_join`), and a normal form with a name on
top of its stack ends in that name (`endsIn_normalize`).  Paths that end in `..` are
different: the directory of `a/..` is `a`, but the directory of its normal form is not.
-/

namespace IncludeTrace

namespace Path

open Component (Inner push)

variable {p q d : Path} {n : Bytes} {s : List Component} {ts : List Text}

/-! ## Directories -/

/-- What stands before the last component of a path. -/
def directory (p : Path) : Path := p.parent?.getD empty

/-- The last component of a path is the name `n`. -/
def EndsIn (p : Path) (n : Bytes) : Prop := p.components.getLast? = some (.name n)

instance (p : Path) (n : Bytes) : Decidable (p.EndsIn n) := inferInstanceAs (Decidable (_ = _))

theorem resolve_eq (p : Path) (t : Text) : p.resolve t = (p.directory.join (ofText t)).normalize :=
  rfl

theorem components_cases (p : Path) :
    p.components = .root :: p.steps ∨ p.components = .here :: p.steps ∨ p.components = p.steps := by
  rw [components]
  split
  · exact .inl rfl
  · split
    · exact .inr (.inl rfl)
    · exact .inr (.inr rfl)

/-- A `.` and inner components are the components of their spelling. -/
theorem components_here {cs : List Component} (h : ∀ c ∈ cs, Inner c) :
    components ⟨[slash].intercalate ((.here :: cs).map Component.segment)⟩ = .here :: cs := by
  have hdot : slash ∉ Component.dot := by decide
  have hsplit : ([slash].intercalate ((.here :: cs).map Component.segment)).splitOn slash =
      Component.dot :: cs.map Component.segment := by
    refine List.splitOn_intercalate slash ?_ (by simp)
    intro s hs
    rcases List.mem_cons.1 hs with rfl | hs
    · exact hdot
    · obtain ⟨c, hc, rfl⟩ := List.mem_map.1 hs
      exact (h c hc).slash_notMem
  have hfirst : isAbsolute ⟨[slash].intercalate ((.here :: cs).map Component.segment)⟩ = false := by
    cases cs with
    | nil => rfl
    | cons c cs => rfl
  have hnone : Component.ofSegment? Component.dot = none := rfl
  unfold components
  simp only [segments, hsplit, hfirst, List.filterMap_cons, hnone, filterMap_segment h]
  rfl

/-- The components of a path before the last one can be read back from their spelling. -/
theorem components_ofComponents_dropLast (p : Path) :
    (ofComponents p.components.dropLast).components = p.components.dropLast := by
  have hinner : ∀ c ∈ p.steps.dropLast, Inner c := fun c hc =>
    p.inner_of_mem_filterMap c ((List.dropLast_sublist _).subset hc)
  have hempty : (ofComponents []).components = [] := rfl
  rcases p.components_cases with h | h | h
  · rw [h]
    by_cases hs : p.steps = []
    · rw [hs]
      exact hempty
    · rw [List.dropLast_cons_of_ne_nil hs]
      exact components_root hinner
  · rw [h]
    by_cases hs : p.steps = []
    · rw [hs]
      exact hempty
    · rw [List.dropLast_cons_of_ne_nil hs]
      exact components_here hinner
  · rw [h]
    cases hs : p.steps.dropLast with
    | nil => exact hempty
    | cons c cs =>
        rw [hs] at hinner
        have hspelled : ofComponents (c :: cs) = _ := ofNormal_cons (hinner c (.head _)) cs
        rw [hspelled]
        exact components_inner hinner (List.cons_ne_nil c cs)

theorem EndsIn.parent?_eq (h : p.EndsIn n) :
    p.parent? = some (ofComponents p.components.dropLast) := by
  rw [EndsIn] at h
  rw [parent?, h]

theorem EndsIn.components_eq (h : p.EndsIn n) :
    p.components = p.directory.components ++ [.name n] := by
  have hdirectory : p.directory.components = p.components.dropLast := by
    rw [directory, h.parent?_eq]
    exact p.components_ofComponents_dropLast
  obtain ⟨cs, hcs⟩ := List.getLast?_eq_some_iff.1 h
  rw [hdirectory, hcs, List.dropLast_concat]

/-- A path that ends in a name has the stack of its directory below the name. -/
theorem EndsIn.stack_eq (h : p.EndsIn n) : p.stack = .name n :: p.directory.stack := by
  rw [stack, h.components_eq, List.foldl_append]
  rfl

theorem EndsIn.isAbsolute_directory (h : p.EndsIn n) : p.directory.isAbsolute = p.isAbsolute := by
  rw [Bool.eq_iff_iff, ← root_mem_components_iff, ← root_mem_components_iff, h.components_eq]
  simp

/-- A joined path ends as the path that was joined to another. -/
theorem EndsIn.stack_join (h : q.EndsIn n) (p : Path) :
    (p.join q).stack = .name n :: (p.join q.directory).stack := by
  cases hq : q.isAbsolute with
  | true =>
      rw [join_of_absolute hq, join_of_absolute (h.isAbsolute_directory.trans hq), h.stack_eq]
  | false =>
      rw [Path.stack_join hq, Path.stack_join (h.isAbsolute_directory.trans hq), h.components_eq,
        List.foldl_append]
      rfl

/-- A normal form ends in the name on top of its stack, and what is below belongs to its
directory. -/
theorem endsIn_normalize (h : p.stack = .name n :: s) :
    p.normalize.EndsIn n ∧ p.normalize.directory.stack = s := by
  have hcomponents : p.normalize.components = s.reverse ++ [.name n] := by
    rw [components_normalize, ← reverse_stack, h, List.reverse_cons, if_neg (by simp)]
  have hends : p.normalize.EndsIn n := by
    rw [EndsIn, hcomponents, List.getLast?_concat]
  refine ⟨hends, ?_⟩
  have hstack := hends.stack_eq
  rw [stack_normalize, h] at hstack
  exact (List.cons.inj hstack).2.symm

/-! ## Chains -/

/-- Targets are looked up in the same way from paths whose directories have the same normal
form. -/
theorem resolve_congr (h : p.directory.stack = q.directory.stack) (t : Text) :
    p.resolve t = q.resolve t := by
  rw [resolve_eq, resolve_eq, normalize_eq_normalize_iff]
  exact stack_join_congr h _

/-- The directory of a target is the directory in which it was looked up, joined with that of the
target. -/
theorem stack_directory_resolve {t : Text} (h : (ofText t).EndsIn n) (p : Path) :
    (p.resolve t).directory.stack = (p.directory.join (ofText t).directory).stack :=
  (endsIn_normalize (h.stack_join p.directory)).2

/-- The directory that is reached from `d` by the directories of some targets. -/
def descend (d : Path) (ts : List Text) : Path :=
  ts.foldl (fun d t => d.join (ofText t).directory) d

/-- A chain of targets is looked up at once from the directory that the targets before the last
lead to.  That directory may be given by any path with the right normal form. -/
theorem foldl_resolve (hd : p.directory.stack = d.stack)
    (hts : ∀ u ∈ ts, ∃ n, (ofText u).EndsIn n) (t : Text) :
    (ts ++ [t]).foldl resolve p = ((d.descend ts).join (ofText t)).normalize := by
  induction ts generalizing p d with
  | nil =>
      rw [List.nil_append, List.foldl_cons, List.foldl_nil, resolve_eq, normalize_eq_normalize_iff]
      exact stack_join_congr hd _
  | cons u ts ih =>
      obtain ⟨n, hn⟩ := hts u (.head _)
      have hnext : (p.resolve u).directory.stack = (d.join (ofText u).directory).stack := by
        rw [stack_directory_resolve hn]
        exact stack_join_congr hd _
      exact ih hnext fun w hw => hts w (.tail _ hw)

/-- The targets of a file do not depend on the spelling of its path. -/
theorem EndsIn.resolve_normalize (h : p.EndsIn n) (t : Text) :
    p.normalize.resolve t = p.resolve t :=
  resolve_congr (endsIn_normalize h.stack_eq).2 t

/-- A chain of targets, each looked up next to the one before it, leads to the normal form of all
directories on the way and the last target, joined as they are spelled.  All paths on the way
end in names.  Two spellings of one path lead to the same targets. -/
theorem resolve_chain {p : Path} {n : Bytes} (hp : p.EndsIn n) {ts : List Text}
    (hts : ∀ u ∈ ts, ∃ m, (ofText u).EndsIn m) (t : Text) :
    p.parent? = some p.directory
      ∧ (ts ++ [t]).foldl resolve p = ((p.directory.descend ts).join (ofText t)).normalize
      ∧ p.resolve t = p.normalize.resolve t
      ∧ ∀ (q : Path) m, q.EndsIn m → q.normalize = p.normalize → q.resolve t = p.resolve t := by
  refine ⟨?_, foldl_resolve rfl hts t, (hp.resolve_normalize t).symm, fun q m hq heq => ?_⟩
  · rw [directory, hp.parent?_eq]
    rfl
  · rw [← hq.resolve_normalize, heq, hp.resolve_normalize]

/-- A file in a directory that is spelled with a `.`. -/
def chainStart : Path := .ofText "./src/main.c".toList

/-- Targets that climb above the start and restart at the root. -/
def chainTargets : List Text :=
  ["../../a.h".toList, "/opt/./inc//b.h".toList, "../x/../c.h".toList]

/-- The last target is looked up from the directory of the third one, which the normal form of the
second one leads to. -/
theorem resolve_chain_restart :
    (chainTargets ++ ["d/".toList]).foldl resolve chainStart = .ofText "/opt/d".toList
      ∧ chainStart.normalize.resolve "d/".toList = .ofText "src/d".toList := by
  have hp : chainStart.EndsIn (Utf8.encode "main.c".toList) := by decide
  have hts : ∀ u ∈ chainTargets, ∃ m, (ofText u).EndsIn m := by
    simp only [chainTargets, List.forall_mem_cons]
    exact ⟨⟨Utf8.encode "a.h".toList, by decide⟩, ⟨Utf8.encode "b.h".toList, by decide⟩,
      ⟨Utf8.encode "c.h".toList, by decide⟩, nofun⟩
  obtain ⟨-, hchain, hsame, -⟩ := resolve_chain hp hts "d/".toList
  rw [hchain, ← hsame]
  decide

end Path

end IncludeTrace
