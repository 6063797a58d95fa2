import IncludeTrace.Path.Normal

/-!
# Normal forms read back

The normal form of a path is built from components, spelled as bytes, and split
into components again whenever it is compared or resolved.  The spelling loses
nothing.  A list of components in normal form is either the root followed by
names, or some `up`s followed by names (`Component.Normal`), and its spelling
has exactly these components (`Path.components_ofNormal`).  The one exception is
the empty list, which is spelled `.`.

Two facts follow for the set of visited paths.  A normal form is its own normal
form (`Path.normalize_normalize`), and normal forms with the same components are
spelled the same (`Path.normalize_eq_iff`).  So the set, which compares
components, tells normal forms apart by their bytes.
-/

namespace IncludeTrace

namespace Component

/-! ## Names -/

/-- The bytes a name can have. -/
structure IsName (n : Bytes) : Prop where
  ne_nil : n ≠ []
  ne_dot : n ≠ dot
  ne_dots : n ≠ dots
  slash_notMem : Path.slash ∉ n

/-- The components a segment can stand for. -/
inductive Inner : Component → Prop where
  | up : Inner .up
  | name {n : Bytes} : IsName n → Inner (.name n)

/-- A segment without slashes stands for an inner component or for nothing. -/
theorem inner_of_ofSegment? {s : Bytes} {c : Component} (hs : Path.slash ∉ s)
    (h : ofSegment? s = some c) : Inner c := by
  unfold ofSegment? at h
  split at h
  · cases h
  · rename_i hne
    split at h
    · cases h
      exact .up
    · rename_i hdots
      cases h
      exact .name ⟨fun h => hne (.inl h), fun h => hne (.inr h), hdots, hs⟩

/-- An inner component is what its segment stands for. -/
theorem Inner.ofSegment?_segment {c : Component} (h : Inner c) : ofSegment? c.segment = some c := by
  cases h with
  | up => rfl
  | name hn => simp [ofSegment?, segment, hn.ne_nil, hn.ne_dot, hn.ne_dots]

theorem Inner.slash_notMem {c : Component} (h : Inner c) : Path.slash ∉ c.segment := by
  cases h with
  | up => decide
  | name hn => exact hn.slash_notMem

theorem Inner.segment_ne_nil {c : Component} (h : Inner c) : c.segment ≠ [] := by
  cases h with
  | up => decide
  | name hn => exact hn.ne_nil

theorem Inner.segment_ne_dot {c : Component} (h : Inner c) : c.segment ≠ dot := by
  cases h with
  | up => decide
  | name hn => exact hn.ne_dot

/-! ## Lists in normal form -/

/-- A list of components in normal form: the root and names below it, or steps up and names
below where they lead. -/
inductive Normal : List Component → Prop where
  | absolute {names : List Bytes} : (∀ n ∈ names, IsName n) → Normal (.root :: names.map .name)
  | relative (ups : Nat) {names : List Bytes} : (∀ n ∈ names, IsName n) →
      Normal (List.replicate ups .up ++ names.map .name)

theorem Normal.root : Normal [.root] := @Normal.absolute [] (by simp)

theorem Normal.ups (ups : Nat) : Normal (List.replicate ups .up) := by
  simpa using @Normal.relative ups [] (by simp)

theorem Normal.ne_here {cs : List Component} (h : Normal cs) : cs ≠ [.here] := by
  rintro rfl
  generalize hcs : [Component.here] = cs at h
  cases h with
  | absolute _ => cases hcs
  | @relative ups names _ =>
      have hmem : Component.here ∈ List.replicate ups .up ++ names.map .name := by
        rw [← hcs]
        exact .head _
      simp at hmem

/-- Names are put behind what is there. -/
theorem foldl_push_names (s : List Component) (names : List Bytes) :
    (names.map Component.name).foldl push s = (names.map Component.name).reverse ++ s := by
  induction names generalizing s with
  | nil => rfl
  | cons n names ih => simp [push, ih]

theorem push_ups (k : Nat) : push (List.replicate k .up) .up = List.replicate (k + 1) .up := by
  cases k <;> rfl

/-- Steps up are put behind steps up. -/
theorem foldl_push_ups (k ups : Nat) :
    (List.replicate ups Component.up).foldl push (List.replicate k .up) =
      List.replicate (k + ups) .up := by
  induction ups generalizing k with
  | zero => rfl
  | succ ups ih =>
      rw [List.replicate_succ, List.foldl_cons, push_ups, ih, Nat.add_assoc, Nat.add_comm 1]

/-- A list in normal form is its own normal form. -/
theorem Normal.normalForm_eq {cs : List Component} (h : Normal cs) : normalForm cs = cs := by
  cases h with
  | absolute _ => simp [normalForm, push, foldl_push_names]
  | relative ups _ =>
      have hups := foldl_push_ups 0 ups
      rw [Nat.zero_add] at hups
      simp only [List.replicate_zero] at hups
      simp [normalForm, hups, foldl_push_names]

/-- One more inner component keeps a list in normal form.  The list is given last component
first, as `push` wants it. -/
theorem Normal.push {s : List Component} {c : Component} (h : Normal s.reverse) (hc : Inner c) :
    Normal (Component.push s c).reverse := by
  generalize hcs : s.reverse = cs at h
  have hs : s = cs.reverse := by rw [← hcs, List.reverse_reverse]
  subst hs
  cases hc with
  | @name m hm =>
      -- The name goes to the end, in either shape.
      have hpush : (Component.push cs.reverse (.name m)).reverse = cs ++ [.name m] := by
        simp [Component.push]
      rw [hpush]
      cases h with
      | @absolute names hn =>
          have hall : ∀ n ∈ names ++ [m], IsName n := by
            simpa [or_imp, forall_and] using ⟨hn, hm⟩
          simpa using Normal.absolute hall
      | @relative ups names hn =>
          have hall : ∀ n ∈ names ++ [m], IsName n := by
            simpa [or_imp, forall_and] using ⟨hn, hm⟩
          simpa using Normal.relative ups hall
  | up =>
      cases h with
      | @absolute names hn =>
          rcases List.eq_nil_or_concat names with rfl | ⟨names, m, rfl⟩
          · exact .root
          · have hall : ∀ n ∈ names, IsName n := fun n h => hn n (by simp [h])
            simpa [Component.push] using Normal.absolute hall
      | @relative ups names hn =>
          rcases List.eq_nil_or_concat names with rfl | ⟨names, m, rfl⟩
          · simpa [push_ups] using Normal.ups (ups + 1)
          · have hall : ∀ n ∈ names, IsName n := fun n h => hn n (by simp [h])
            simpa [Component.push] using Normal.relative ups hall

theorem Normal.foldl_push {s cs : List Component} (h : Normal s.reverse)
    (hcs : ∀ c ∈ cs, Inner c) : Normal (cs.foldl Component.push s).reverse := by
  induction cs generalizing s with
  | nil => exact h
  | cons c cs ih =>
      exact ih (h.push (hcs c (.head _))) (fun d hd => hcs d (.tail _ hd))

section Members

variable {c d : Component} {s cs : List Component}

theorem mem_push (h : c ∈ Component.push s d) : c ∈ s ∨ c = d := by
  cases d with
  | here => exact .inl h
  | root => exact (List.mem_cons.1 h).symm
  | name n => exact (List.mem_cons.1 h).symm
  | up =>
      match s with
      | [] => exact (List.mem_cons.1 h).symm
      | .here :: _ => exact (List.mem_cons.1 h).symm
      | .up :: _ => exact (List.mem_cons.1 h).symm
      | .name n :: s => exact .inl (.tail _ h)
      | .root :: s => exact .inl h

theorem mem_foldl_push (h : c ∈ cs.foldl Component.push s) : c ∈ s ∨ c ∈ cs := by
  induction cs generalizing s with
  | nil => exact .inl h
  | cons d cs ih =>
      rcases ih h with h | h
      · rcases mem_push h with h | rfl
        · exact .inl h
        · exact .inr (.head _)
      · exact .inr (.tail _ h)

/-- A normal form has no other components than the list it is made from. -/
theorem mem_of_mem_normalForm (h : c ∈ normalForm cs) : c ∈ cs := by
  simpa using mem_foldl_push (List.mem_reverse.1 h)

end Members

/-- A list in normal form has inner components only, behind the root if it begins there. -/
theorem Normal.inner {cs : List Component} (h : Normal cs) :
    (∃ ds, cs = .root :: ds ∧ ∀ c ∈ ds, Inner c) ∨ ∀ c ∈ cs, Inner c := by
  cases h with
  | @absolute names hn =>
      left
      refine ⟨_, rfl, fun c hc => ?_⟩
      obtain ⟨n, hmem, rfl⟩ := List.mem_map.1 hc
      exact .name (hn n hmem)
  | @relative ups names hn =>
      right
      intro c hc
      rcases List.mem_append.1 hc with hc | hc
      · rw [List.eq_of_mem_replicate hc]
        exact .up
      · obtain ⟨n, hmem, rfl⟩ := List.mem_map.1 hc
        exact .name (hn n hmem)

end Component

namespace Path

open Component (Inner IsName Normal normalForm)

/-! ## The components of a path -/

/-- There is no separator between two separators. -/
theorem notMem_of_mem_splitOn {x : UInt8} {l : Bytes} :
    ∀ s ∈ l.splitOn x, x ∉ s := by
  induction l with
  | nil => simp
  | cons y l ih =>
      rw [List.splitOn_cons_eq_if_modifyHead]
      split
      · rintro s (_ | ⟨_, hs⟩)
        · exact List.not_mem_nil
        · exact ih s hs
      · rename_i hy
        cases hl : l.splitOn x with
        | nil => simp
        | cons t ts =>
            rw [hl] at ih
            rintro s (_ | ⟨_, hs⟩)
            · have ht := ih t (.head _)
              have hxy : x ≠ y := fun h => hy (by simp [h])
              simp [hxy, ht]
            · exact ih s (.tail _ hs)

/-- What stands behind the first component of a path. -/
theorem inner_of_mem_filterMap (p : Path) :
    ∀ c ∈ p.segments.filterMap Component.ofSegment?, Inner c := by
  intro c hc
  obtain ⟨s, hs, h⟩ := List.mem_filterMap.1 hc
  exact Component.inner_of_ofSegment? (notMem_of_mem_splitOn s hs) h

/-- The normal form of the components of a path is a list in normal form. -/
theorem normal_normalForm (p : Path) : Normal (normalForm p.components) := by
  have hinner := p.inner_of_mem_filterMap
  have habsolute := Normal.foldl_push (s := [.root]) .root hinner
  have hrelative := Normal.foldl_push (s := []) (.ups 0) hinner
  unfold components normalForm
  split
  · exact habsolute
  · split
    · exact hrelative
    · exact hrelative

theorem filterMap_segment {cs : List Component} (h : ∀ c ∈ cs, Inner c) :
    (cs.map Component.segment).filterMap Component.ofSegment? = cs := by
  induction cs with
  | nil => rfl
  | cons c cs ih =>
      rw [List.map_cons, List.filterMap_cons, (h c (.head _)).ofSegment?_segment]
      simp [ih (fun d hd => h d (.tail _ hd))]

theorem splitOn_spelling {cs : List Component} (h : ∀ c ∈ cs, Inner c) (hne : cs ≠ []) :
    ([slash].intercalate (cs.map Component.segment)).splitOn slash = cs.map Component.segment := by
  refine List.splitOn_intercalate slash ?_ (by simpa using hne)
  intro s hs
  obtain ⟨c, hc, rfl⟩ := List.mem_map.1 hs
  exact (h c hc).slash_notMem

/-- Inner components are the components of their spelling. -/
theorem components_inner {cs : List Component} (h : ∀ c ∈ cs, Inner c) (hne : cs ≠ []) :
    components ⟨[slash].intercalate (cs.map Component.segment)⟩ = cs := by
  obtain ⟨c, rest, rfl⟩ := List.exists_cons_of_ne_nil hne
  have hc := h c (.head _)
  have hsplit := splitOn_spelling h hne
  have hfirst : isAbsolute ⟨[slash].intercalate ((c :: rest).map Component.segment)⟩ = false := by
    obtain ⟨b, s, hb⟩ := List.exists_cons_of_ne_nil hc.segment_ne_nil
    have hslash : b ≠ slash := fun he => hc.slash_notMem (by simp [hb, he])
    cases rest <;> simp [isAbsolute, hb, hslash, List.intercalate_cons_cons]
  unfold components
  simp only [segments, hsplit, hfirst, filterMap_segment h]
  simp [hc.segment_ne_dot]

/-- The root and inner components are the components of their spelling. -/
theorem components_root {cs : List Component} (h : ∀ c ∈ cs, Inner c) :
    components ⟨slash :: [slash].intercalate (cs.map Component.segment)⟩ = .root :: cs := by
  have hsplit (b : Bytes) : (slash :: b).splitOn slash = [] :: b.splitOn slash := by
    rw [List.splitOn_cons_eq_if_modifyHead]
    simp
  have hempty : Component.ofSegment? [] = none := rfl
  unfold components
  simp only [segments, hsplit, isAbsolute, List.head?_cons, beq_self_eq_true, if_true,
    List.filterMap_cons, hempty]
  by_cases hne : cs = []
  · subst hne
    rfl
  · rw [splitOn_spelling h hne, filterMap_segment h]

/-- A list in normal form that does not begin with the root is spelled as its segments. -/
theorem ofNormal_cons {c : Component} (h : Inner c) (cs : List Component) :
    ofNormal (c :: cs) = ⟨[slash].intercalate ((c :: cs).map Component.segment)⟩ := by
  cases h <;> rfl

/-- A list in normal form is spelled so that it can be read back. -/
theorem components_ofNormal {cs : List Component} (h : Normal cs) :
    (ofNormal cs).components = if cs = [] then [.here] else cs := by
  rcases h.inner with ⟨ds, rfl, hds⟩ | hinner
  · simpa [ofNormal, ofComponents] using components_root hds
  · cases cs with
    | nil => decide
    | cons c cs =>
        rw [ofNormal_cons (hinner c (.head _)), components_inner hinner (by simp)]
        simp

/-! ## Normal forms of normal forms -/

theorem components_normalize (p : Path) :
    p.normalize.components =
      if normalForm p.components = [] then [.here] else normalForm p.components :=
  components_ofNormal p.normal_normalForm

/-- The components of a normal form have the normal form that they were made from. -/
theorem normalForm_normalize (p : Path) :
    normalForm p.normalize.components = normalForm p.components := by
  rw [components_normalize]
  split
  · rename_i h
    rw [h]
    rfl
  · exact p.normal_normalForm.normalForm_eq

/-- A normal form is its own normal form. -/
@[simp] theorem normalize_normalize (p : Path) : p.normalize.normalize = p.normalize :=
  congrArg ofNormal p.normalForm_normalize

/-- Normal forms with the same components are spelled the same. -/
theorem normalize_eq_iff {p q : Path} :
    p.normalize.components = q.normalize.components ↔ p.normalize = q.normalize := by
  refine ⟨fun h => ?_, fun h => by rw [h]⟩
  have hp := p.normal_normalForm
  have hq := q.normal_normalForm
  have hforms : normalForm p.components = normalForm q.components := by
    rw [components_normalize, components_normalize] at h
    split at h <;> split at h
    · rename_i hp' hq'
      rw [hp', hq']
    · exact absurd h.symm hq.ne_here
    · exact absurd h hp.ne_here
    · exact h
  rw [normalize, normalize, hforms]

/-- Where a quoted target lies is given in normal form. -/
@[simp] theorem normalize_resolve (p : Path) (target : Text) :
    (p.resolve target).normalize = p.resolve target :=
  normalize_normalize _

end Path

end IncludeTrace
