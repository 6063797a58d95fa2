import IncludeTrace.Proofs.NormalForm
import IncludeTrace.Visited

/-!
# Joined paths

A normal form is made on a stack.  Here the stack itself is looked at: `Path.stack` is
the normal form of a path with the last component first.  Two paths have the same
normal form just when they have the same stack (`Path.normalize_eq_normalize_iff`).

A path that is joined to another puts its components on the stack of the other, or
begins a new one if it is absolute (`Path.stack_join`).  It makes no difference
whether the components are put there as they are or in normal form
(`Component.foldl_push_normalForm`): an `up` that takes back a name takes it back
wherever the two stand, and every other `up` is still in the normal form.  So the normal
form of a joined path can be made from normal forms.

How a normal form is spelled is said in bytes by `Path.Canonical`.
-/

namespace IncludeTrace

namespace Component

variable {s t cs : List Component}

theorem root_mem_push (h : .root ∈ s) (c : Component) : .root ∈ push s c := by
  cases c with
  | here => exact h
  | root => exact .head _
  | name n => exact .tail _ h
  | up =>
      match s with
      | .name n :: s => exact (List.mem_cons.1 h).resolve_left nofun
      | .root :: s => exact h
      | .here :: s => exact .tail _ h
      | .up :: s => exact .tail _ h

/-- The root is never taken back. -/
theorem root_mem_foldl_push (h : .root ∈ s) (cs : List Component) : .root ∈ cs.foldl push s := by
  induction cs generalizing s with
  | nil => exact h
  | cons c cs ih => exact ih (root_mem_push h c)

/-- One more component behind a normal list `t`, and then the whole list on a stack `s`: this is
the same as the list on the stack, and then the component. -/
theorem foldl_push_push (h : .root ∉ t) (s : List Component) (c : Component) :
    (push t c).reverse.foldl push s = push (t.reverse.foldl push s) c := by
  have hkept : (c :: t).reverse.foldl push s = push (t.reverse.foldl push s) c := by
    rw [List.reverse_cons, List.foldl_append]
    rfl
  cases c with
  | here => rfl
  | root => exact hkept
  | name n => exact hkept
  | up =>
      match t with
      | [] => exact hkept
      | .here :: _ => exact hkept
      | .up :: _ => exact hkept
      | .root :: _ => exact absurd (.head _) h
      | .name n :: t =>
          -- The name is on top of the stack when it is taken back.
          show t.reverse.foldl push s = _
          rw [List.reverse_cons, List.foldl_append]
          rfl

theorem foldl_push_foldl_push (ht : .root ∉ t) (hcs : .root ∉ cs) (s : List Component) :
    (cs.foldl push t).reverse.foldl push s = cs.foldl push (t.reverse.foldl push s) := by
  induction cs generalizing t with
  | nil => rfl
  | cons c cs ih =>
      have hpush : .root ∉ push t c := fun h => by
        rcases mem_push h with h | rfl
        · exact ht h
        · exact hcs (.head _)
      rw [List.foldl_cons, ih hpush fun h => hcs (.tail _ h), foldl_push_push ht, List.foldl_cons]

/-- On a stack, a list of components and its normal form do the same. -/
theorem foldl_push_normalForm (h : .root ∉ cs) (s : List Component) :
    (normalForm cs).foldl push s = cs.foldl push s :=
  foldl_push_foldl_push List.not_mem_nil h s

end Component

namespace Path

open Component (Inner IsName Normal normalForm push)

variable {p q : Path}

/-! ## Stacks -/

/-- The components of a path, without the root or a `.` in front of them. -/
def steps (p : Path) : List Component := p.segments.filterMap Component.ofSegment?

/-- The normal form of a path, last component first. -/
def stack (p : Path) : List Component := p.components.foldl push []

theorem components_of_absolute (h : p.isAbsolute = true) : p.components = .root :: p.steps :=
  if_pos h

/-- In front of the steps of a relative path there can only be `.`, which is not put on a stack. -/
theorem foldl_push_components (h : p.isAbsolute = false) (s : List Component) :
    p.components.foldl push s = p.steps.foldl push s := by
  rw [components, if_neg (by simp [h])]
  split <;> rfl

theorem root_notMem_steps (p : Path) : .root ∉ p.steps := fun h =>
  nomatch p.inner_of_mem_filterMap _ h

theorem root_mem_components_iff : .root ∈ p.components ↔ p.isAbsolute = true := by
  cases h : p.isAbsolute with
  | true =>
      rw [components_of_absolute h]
      simp
  | false =>
      have hsteps : .root ∉ p.segments.filterMap Component.ofSegment? := p.root_notMem_steps
      rw [components, if_neg (by simp [h])]
      split
      · simpa using hsteps
      · simpa using hsteps

theorem root_mem_stack_iff : .root ∈ p.stack ↔ p.isAbsolute = true := by
  refine ⟨fun h => ?_, fun h => ?_⟩
  · rcases Component.mem_foldl_push h with h | h
    · cases h
    · exact root_mem_components_iff.1 h
  · rw [stack, components_of_absolute h]
    exact Component.root_mem_foldl_push (.head _) _

theorem reverse_stack (p : Path) : p.stack.reverse = normalForm p.components := rfl

theorem normalize_eq_ofNormal (p : Path) : p.normalize = ofNormal p.stack.reverse := rfl

@[simp] theorem stack_normalize (p : Path) : p.normalize.stack = p.stack :=
  List.reverse_inj.1 p.normalForm_normalize

/-- Paths have the same normal form just when they have the same stack. -/
theorem normalize_eq_normalize_iff : p.normalize = q.normalize ↔ p.stack = q.stack := by
  refine ⟨fun h => ?_, fun h => ?_⟩
  · rw [← stack_normalize p, h, stack_normalize]
  · rw [normalize_eq_ofNormal, h, normalize_eq_ofNormal]

@[simp] theorem isAbsolute_normalize (p : Path) : p.normalize.isAbsolute = p.isAbsolute := by
  rw [Bool.eq_iff_iff, ← root_mem_stack_iff, ← root_mem_stack_iff, stack_normalize]

/-! ## Joining -/

theorem join_of_absolute (h : q.isAbsolute = true) (p : Path) : p.join q = q := if_pos h

theorem splitOn_append_slash (a b : Bytes) :
    (a ++ slash :: b).splitOn slash = a.splitOn slash ++ b.splitOn slash :=
  List.splitOnP_append_cons a b (beq_self_eq_true slash)

/-- The steps of a relative path follow those of the path it is joined to. -/
theorem steps_join (h : q.isAbsolute = false) (p : Path) :
    (p.join q).steps = p.steps ++ q.steps := by
  obtain ⟨a⟩ := p
  obtain ⟨b⟩ := q
  have hempty : Component.ofSegment? [] = none := rfl
  rw [join, if_neg (by simp [h])]
  split
  · rename_i hlast
    rcases hlast with rfl | hlast
    · rfl
    · obtain ⟨a, rfl⟩ := List.getLast?_eq_some_iff.1 hlast
      simp [steps, segments, splitOn_append_slash, hempty]
  · simp [steps, segments, splitOn_append_slash]

theorem isAbsolute_join (h : q.isAbsolute = false) (p : Path) :
    (p.join q).isAbsolute = p.isAbsolute := by
  obtain ⟨a⟩ := p
  rw [join, if_neg (by simp [h])]
  cases a with
  | nil =>
      rw [if_pos (.inl rfl)]
      exact h
  | cons x a => split <;> rfl

theorem empty_join (p : Path) : empty.join p = p := by
  rw [join]
  split <;> rfl

/-- A relative path is put on the stack of the path it is joined to. -/
theorem stack_join (h : q.isAbsolute = false) (p : Path) :
    (p.join q).stack = q.components.foldl push p.stack := by
  rw [foldl_push_components h]
  cases hp : p.isAbsolute with
  | true =>
      rw [stack, stack, components_of_absolute hp,
        components_of_absolute (by rw [isAbsolute_join h, hp]), steps_join h, ← List.cons_append,
        List.foldl_append]
  | false =>
      rw [stack, stack, foldl_push_components hp,
        foldl_push_components (by rw [isAbsolute_join h, hp]), steps_join h, List.foldl_append]

/-- Only the normal form of a path matters to what is joined to it. -/
theorem stack_join_congr {p' : Path} (h : p.stack = p'.stack) (q : Path) :
    (p.join q).stack = (p'.join q).stack := by
  cases hq : q.isAbsolute with
  | true => rw [join_of_absolute hq, join_of_absolute hq]
  | false => rw [stack_join hq, stack_join hq, h]

/-- Only the normal form of a path matters to what it is joined to. -/
theorem stack_join_normalize (p q : Path) : (p.join q.normalize).stack = (p.join q).stack := by
  cases hq : q.isAbsolute with
  | true =>
      rw [join_of_absolute hq, join_of_absolute (by rw [isAbsolute_normalize, hq]), stack_normalize]
  | false =>
      have hroot : .root ∉ q.components := fun h => by simp [root_mem_components_iff.1 h] at hq
      have hform : q.normalize.components.foldl push p.stack =
          (normalForm q.components).foldl push p.stack := by
        rw [components_normalize]
        split
        · rename_i hnil
          rw [hnil]
          rfl
        · rfl
      rw [stack_join hq, stack_join (by rw [isAbsolute_normalize, hq]), hform,
        Component.foldl_push_normalForm hroot]

/-- The normal form of a joined path can be made from normal forms. -/
theorem normalize_join (p q : Path) :
    (p.join q).normalize = (p.normalize.join q.normalize).normalize := by
  rw [normalize_eq_normalize_iff, stack_join_normalize]
  exact stack_join_congr (stack_normalize p).symm q

/-- It does not matter which of two joins is made first. -/
theorem stack_join_join (p q r : Path) : ((p.join q).join r).stack = (p.join (q.join r)).stack := by
  cases hr : r.isAbsolute with
  | true => rw [join_of_absolute hr, join_of_absolute hr, join_of_absolute hr]
  | false =>
      have habsolute := isAbsolute_join hr q
      cases hq : q.isAbsolute with
      | true => rw [join_of_absolute hq, join_of_absolute (habsolute.trans hq)]
      | false =>
          rw [stack_join hr, stack_join hq, stack_join (habsolute.trans hq),
            foldl_push_components hr, foldl_push_components hq,
            foldl_push_components (habsolute.trans hq), steps_join hr, List.foldl_append]

/-! ## Canonical spellings -/

/-- The spelling of a normal form: `.`, or the root and names below it, or steps up and names
below where they lead.  There is one slash between two of them and none at the end. -/
inductive Canonical : Path → Prop where
  | here : Canonical ⟨Component.dot⟩
  | absolute {names : List Bytes} : (∀ n ∈ names, IsName n) →
      Canonical ⟨slash :: [slash].intercalate names⟩
  | relative {ups : Nat} {names : List Bytes} : (∀ n ∈ names, IsName n) →
      List.replicate ups Component.dots ++ names ≠ [] →
      Canonical ⟨[slash].intercalate (List.replicate ups Component.dots ++ names)⟩

theorem map_segment_name (names : List Bytes) :
    (names.map Component.name).map Component.segment = names := by
  rw [List.map_map]
  exact List.map_id names

theorem map_segment_relative (ups : Nat) (names : List Bytes) :
    (List.replicate ups Component.up ++ names.map Component.name).map Component.segment =
      List.replicate ups Component.dots ++ names := by
  rw [List.map_append, List.map_replicate, map_segment_name]
  rfl

theorem ofNormal_absolute (names : List Bytes) :
    ofNormal (.root :: names.map .name) = ⟨slash :: [slash].intercalate names⟩ := by
  rw [ofNormal, ofComponents, map_segment_name]
  simp

theorem ofNormal_relative {ups : Nat} {names : List Bytes} (hn : ∀ n ∈ names, IsName n)
    (hne : List.replicate ups Component.dots ++ names ≠ []) :
    ofNormal (List.replicate ups .up ++ names.map .name) =
      ⟨[slash].intercalate (List.replicate ups Component.dots ++ names)⟩ := by
  rw [← map_segment_relative] at hne ⊢
  rcases (Normal.relative ups hn).inner with ⟨ds, hroot, -⟩ | hinner
  · have hmem : Component.root ∈ List.replicate ups .up ++ names.map .name := by
      rw [hroot]
      exact .head _
    simp at hmem
  · generalize List.replicate ups Component.up ++ names.map Component.name = cs at hne hinner
    cases cs with
    | nil => exact absurd rfl hne
    | cons c cs => exact ofNormal_cons (hinner c (.head _)) cs

theorem canonical_ofNormal {cs : List Component} (h : Normal cs) : (ofNormal cs).Canonical := by
  cases h with
  | @absolute names hn =>
      rw [ofNormal_absolute]
      exact .absolute hn
  | @relative ups names hn =>
      by_cases hne : List.replicate ups Component.dots ++ names = []
      · obtain ⟨hups, rfl⟩ := List.append_eq_nil_iff.1 hne
        obtain rfl : ups = 0 := by simpa using hups
        exact .here
      · rw [ofNormal_relative hn hne]
        exact .relative hn hne

/-- A path is spelled canonically just when it is its own normal form. -/
theorem canonical_iff : p.Canonical ↔ p.normalize = p := by
  -- What is spelled from a normal list is read back as that list.
  have hback {cs : List Component} (hcs : Normal cs) : (ofNormal cs).normalize = ofNormal cs := by
    have hform : normalForm (ofNormal cs).components = cs := by
      rw [components_ofNormal hcs]
      split
      · rename_i hnil
        rw [hnil]
        rfl
      · exact hcs.normalForm_eq
    exact congrArg ofNormal hform
  refine ⟨fun h => ?_, fun h => ?_⟩
  · cases h with
    | here => rfl
    | @absolute names hn =>
        rw [← ofNormal_absolute]
        exact hback (.absolute hn)
    | @relative ups names hn hne =>
        rw [← ofNormal_relative hn hne]
        exact hback (.relative ups hn)
  · rw [← h]
    exact canonical_ofNormal p.normal_normalForm

/-! ## Visited normal forms -/

/-- Among normal forms the visited paths are compared by their spelling. -/
theorem contains_normalize_iff {v : Visited} (hv : ∀ q ∈ v.paths, q.normalize = q) (p : Path) :
    v.contains p.normalize = true ↔ p.normalize ∈ v.paths := by
  have hsame {q : Path} (hq : q ∈ v.paths) :
      q.components = p.normalize.components ↔ q = p.normalize := by
    rw [← hv q hq]
    exact normalize_eq_iff
  simp only [Visited.contains, List.any_eq_true, beq_iff_eq]
  refine ⟨?_, fun h => ⟨_, h, rfl⟩⟩
  rintro ⟨q, hq, hcomponents⟩
  rwa [(hsame hq).1 hcomponents] at hq

/-- The laws of normal forms.  A normal form is spelled canonically, and the canonically spelled
paths are the ones that are their own normal forms.  The normal form of a joined path is that of
the joined normal forms.  Paths with the same components have the same normal form, and normal
forms with the same components have the same bytes, so that a set of visited normal forms has just
the paths that were put into it. -/
theorem normalize_laws (a b : Path) :
    a.normalize.Canonical ∧ (a.Canonical ↔ a.normalize = a)
      ∧ a.normalize.normalize = a.normalize
      ∧ (a.join b).normalize = (a.normalize.join b.normalize).normalize
      ∧ (a.components = b.components → a.normalize = b.normalize)
      ∧ (a.normalize.components = b.normalize.components → a.normalize.bytes = b.normalize.bytes)
      ∧ ∀ v : Visited, (∀ q ∈ v.paths, q.normalize = q) →
        v.containsThenInsert a.normalize =
          if a.normalize ∈ v.paths then (true, v) else (false, ⟨v.paths ++ [a.normalize]⟩) := by
  refine ⟨canonical_ofNormal a.normal_normalForm, canonical_iff, normalize_normalize a,
    normalize_join a b, fun h => ?_, fun h => ?_, fun v hv => ?_⟩
  · rw [normalize, normalize, h]
  · rw [normalize_eq_iff.1 h]
  · rw [Visited.containsThenInsert]
    simp only [contains_normalize_iff hv]

/-- Two spellings of one path, of which the second is canonical. -/
theorem normalize_laws_spellings :
    (ofText "../a//b/.".toList).components = (ofText "../a/b".toList).components
      ∧ (ofText "../a//b/.".toList).normalize = (ofText "../a/b".toList).normalize
      ∧ Visited.containsThenInsert ⟨[.ofText "../a/b".toList]⟩ (ofText "../a//b/.".toList).normalize
        = (true, ⟨[.ofText "../a/b".toList]⟩) := by
  have hcomponents :
      (ofText "../a//b/.".toList).components = (ofText "../a/b".toList).components := by decide
  have hv : ∀ q ∈ [ofText "../a/b".toList], q.normalize = q := by decide
  obtain ⟨-, -, -, -, hsame, -, hvisited⟩ :=
    normalize_laws (.ofText "../a//b/.".toList) (.ofText "../a/b".toList)
  refine ⟨hcomponents, hsame hcomponents, (hvisited ⟨_⟩ hv).trans ?_⟩
  decide

end Path

end IncludeTrace
