import IncludeTrace.Proofs.Lines
import IncludeTrace.Proofs.Outcome
import IncludeTrace.Proofs.Resolution
import IncludeTrace.Tree

/-!
# Moved trees

A tree of files can be traced from its own directory or from a directory further up,
where all its paths begin with some directory `d`.  The two traces tell the same.  The root is
entered as `d` joined with it, every other relative path `p` is entered as the normal form
of `d` joined with `p` (`Path.under`), and absolute paths stay as they are.

The trace from further up is the image of the other one, position by position
(`Position.relocated`).  Two things have to be seen for that.  The paths of the targets of a
file are the images of the paths they have in the other trace, which is a matter of the
directory of the file (`Path.resolve_under`).  And different visited paths have different
images (`Path.InTree.under_injective`), so that a path is passed over in both traces or in
none.  Neither is true of paths that lead out of the tree by `..`.

Two paths have no name at their end, and no directory that moves along.  One is `.`, and
it is assumed to have no directives.  The other one is the root directory.  Its relative
targets would be looked up from wherever the trace is made, so it is assumed to have none
(`RootDirectoryStays`).  A directory tree always satisfies this, since its root can be opened
and not read (`Tree.rootDirectoryStays`).
-/

namespace IncludeTrace

open Component (Normal normalForm push)

namespace Path

variable {d p q : Path} {n : Bytes}

/-! ## Paths under a directory -/

/-- The path does not begin with `..`. -/
def Inside (p : Path) : Prop := p.components.head? ≠ some .up

instance (p : Path) : Decidable p.Inside := inferInstanceAs (Decidable (_ ≠ _))

/-- A normal form that lies in the tree. -/
structure InTree (p : Path) : Prop where
  normal : p.normalize = p
  inside : p.Inside

instance (p : Path) : Decidable p.InTree :=
  decidable_of_iff (p.normalize = p ∧ p.Inside) ⟨fun ⟨h, h'⟩ => ⟨h, h'⟩, fun h => ⟨h.1, h.2⟩⟩

/-- The path `p` as it is called from further up, where its directory is called `d`. -/
def under (p d : Path) : Path := if p.isAbsolute then p else (d.join p).normalize

theorem under_of_absolute (h : p.isAbsolute = true) (d : Path) : p.under d = p := if_pos h

theorem under_of_relative (h : p.isAbsolute = false) (d : Path) :
    p.under d = (d.join p).normalize :=
  if_neg (by simp [h])

/-- A normal form moves to the normal form of the moved path. -/
theorem under_normalize (p d : Path) : p.normalize.under d = (d.join p).normalize := by
  cases hp : p.isAbsolute with
  | true => rw [under_of_absolute (by rw [isAbsolute_normalize, hp]), join_of_absolute hp]
  | false =>
      rw [under_of_relative (by rw [isAbsolute_normalize, hp]), normalize_eq_normalize_iff]
      exact stack_join_normalize d p

theorem InTree.normalize_under (h : p.InTree) (d : Path) : (p.under d).normalize = p.under d := by
  rw [← h.normal, under_normalize, normalize_normalize]

theorem isAbsolute_under (hd : d.isAbsolute = false) (p : Path) :
    (p.under d).isAbsolute = p.isAbsolute := by
  cases hp : p.isAbsolute with
  | true => rw [under_of_absolute hp, hp]
  | false => rw [under_of_relative hp, isAbsolute_normalize, isAbsolute_join hp, hd]

theorem inside_of_absolute (h : p.isAbsolute = true) : p.Inside := by
  rw [Inside, components_of_absolute h]
  nofun

/-- A relative normal form that does not begin with `..` consists of names. -/
theorem Inside.exists_names (h : p.normalize.Inside) (hp : p.isAbsolute = false) :
    ∃ names : List Bytes, normalForm p.components = names.map .name := by
  rw [Inside, components_normalize] at h
  have hroot : .root ∉ normalForm p.components := fun hmem => by
    rw [← reverse_stack, List.mem_reverse, root_mem_stack_iff, hp] at hmem
    cases hmem
  have hnormal := p.normal_normalForm
  generalize normalForm p.components = cs at h hroot hnormal
  cases hnormal with
  | absolute _ => exact absurd (.head _) hroot
  | @relative ups names _ =>
      cases ups with
      | zero => exact ⟨names, rfl⟩
      | succ ups => exact absurd rfl h

/-- Names stand on the stack of the directory they are joined to. -/
theorem Inside.stack_join (h : p.normalize.Inside) (hp : p.isAbsolute = false) (d : Path) :
    (d.join p).stack = p.stack ++ d.stack := by
  obtain ⟨names, hnames⟩ := h.exists_names hp
  have hroot : .root ∉ p.components := fun hmem => by
    rw [root_mem_components_iff, hp] at hmem
    cases hmem
  have hstack : p.stack = (names.map Component.name).reverse := by
    rw [← hnames, ← reverse_stack, List.reverse_reverse]
  rw [Path.stack_join hp, ← Component.foldl_push_normalForm hroot, hnames,
    Component.foldl_push_names, hstack]

/-- Different normal forms have different images. -/
theorem InTree.under_injective (hd : d.isAbsolute = false) (hp : p.InTree) (hq : q.InTree)
    (h : p.under d = q.under d) : p = q := by
  have habsolute : p.isAbsolute = q.isAbsolute := by
    rw [← isAbsolute_under hd p, h, isAbsolute_under hd]
  cases hpa : p.isAbsolute with
  | true => rwa [under_of_absolute hpa, under_of_absolute (habsolute.symm.trans hpa)] at h
  | false =>
      have hqa := habsolute.symm.trans hpa
      have hpi : p.normalize.Inside := hp.normal.symm ▸ hp.inside
      have hqi : q.normalize.Inside := hq.normal.symm ▸ hq.inside
      rw [under_of_relative hpa, under_of_relative hqa, normalize_eq_normalize_iff,
        hpi.stack_join hpa, hqi.stack_join hqa] at h
      rw [← hp.normal, ← hq.normal, normalize_eq_normalize_iff]
      exact List.append_cancel_right h

/-! ## Targets -/

/-- Targets move along if the directory in which they are looked up does. -/
theorem resolve_under {p' : Path} (h : p'.directory.stack = (d.join p.directory).stack) (t : Text) :
    p'.resolve t = (p.resolve t).under d := by
  rw [resolve_eq p, under_normalize, resolve_eq, normalize_eq_normalize_iff, ← stack_join_join]
  exact stack_join_congr h _

theorem endsIn_iff_steps : p.EndsIn n ↔ p.steps.getLast? = some (.name n) := by
  rw [EndsIn]
  rcases p.components_cases with h | h | h
  · rw [h, List.getLast?_cons]
    cases p.steps.getLast? <;> simp
  · rw [h, List.getLast?_cons]
    cases p.steps.getLast? <;> simp
  · rw [h]

theorem EndsIn.join (h : q.EndsIn n) (d : Path) : (d.join q).EndsIn n := by
  cases hq : q.isAbsolute with
  | true => rwa [join_of_absolute hq]
  | false =>
      rw [endsIn_iff_steps] at h ⊢
      rw [steps_join hq, List.getLast?_append, h]
      rfl

/-- The targets of a path that ends in a name move along, if it is joined to a directory. -/
theorem EndsIn.resolve_join (h : p.EndsIn n) (d : Path) (t : Text) :
    (d.join p).resolve t = (p.resolve t).under d := by
  refine resolve_under ?_ t
  have hstack := (h.join d).stack_eq
  rw [h.stack_join] at hstack
  exact (List.cons.inj hstack).2.symm

/-- The targets of a normal form that ends in a name move along. -/
theorem EndsIn.resolve_under (h : p.EndsIn n) (hp : p.normalize = p) (d : Path) (t : Text) :
    (p.under d).resolve t = (p.resolve t).under d := by
  rw [← h.resolve_join, ← (h.join d).resolve_normalize, ← under_normalize, hp]

/-- Among the normal forms that do not begin with `..`, only `.` and the root directory do not end
in a name. -/
theorem InTree.endsIn_or (hp : p.InTree) :
    p = ⟨Component.dot⟩ ∨ p = ⟨[slash]⟩ ∨ ∃ n, p.EndsIn n := by
  obtain ⟨hp, h⟩ := hp
  rw [← hp] at h ⊢
  have hlast (cs : List Component) {n : Bytes} (hcs : normalForm p.components = cs ++ [.name n]) :
      ∃ n, p.normalize.EndsIn n := by
    refine ⟨n, (endsIn_normalize (s := cs.reverse) ?_).1⟩
    rw [← List.reverse_inj, reverse_stack, hcs]
    simp
  rw [Inside, components_normalize] at h
  have hnormal := p.normal_normalForm
  rw [normalize]
  generalize hform : normalForm p.components = form at h hnormal
  cases hnormal with
  | @absolute names _ =>
      rcases List.eq_nil_or_concat names with rfl | ⟨names, n, rfl⟩
      · exact .inr (.inl rfl)
      · refine .inr (.inr ?_)
        rw [← hform]
        exact hlast (.root :: names.map .name) (by simpa using hform)
  | @relative ups names _ =>
      rcases List.eq_nil_or_concat names with rfl | ⟨names, n, rfl⟩
      · cases ups with
        | zero => exact .inl rfl
        | succ ups => exact absurd rfl h
      · refine .inr (.inr ?_)
        rw [← hform]
        exact hlast (List.replicate ups .up ++ names.map .name) (by simpa using hform)

end Path

/-! ## Moved positions -/

/-- Where the file that was opened by the path `p` lies from further up.  The root of the trace is
not put into normal form. -/
def Path.placed (d root p : Path) : Path := if p = root then d.join root else p.under d

/-- An event after the first one, from further up. -/
def Event.relocated (d root : Path) : Event → Event
  | .enter p => .enter (p.under d)
  | .found p x => .found (.placed d root p) x
  | .failed p stage cause => .failed (.placed d root p) stage cause
  | .close p => .close (.placed d root p)

/-- Visited paths from further up. -/
def Visited.relocated (d : Path) (v : Visited) : Visited := ⟨v.paths.map (·.under d)⟩

/-- The file system `files'` has in the directory `d` what `files` has in the directory of the trace
of `root`.  Nothing is said of paths that lead out of the directory. -/
structure Relocates (d root : Path) (files files' : FileSystem) : Prop where
  root : files' (d.join root) = files root
  relative : ∀ p : Path, p.isAbsolute = false → p.normalize = p → p.Inside →
    files' (d.join p).normalize = files p
  absolute : ∀ p : Path, p.isAbsolute = true → files' p = files p
  here : ∀ ds, files ⟨Component.dot⟩ = .ok ds → (Scan.ofDeliveries ds).directives = []

/-- All targets that are followed from the root directory are absolute. -/
def RootDirectoryStays (files : FileSystem) : Prop :=
  ∀ ds, files ⟨[Path.slash]⟩ = .ok ds → ∀ x ∈ (Scan.ofDeliveries ds).directives,
    x.directive.isFollowed = true → (Path.ofText x.directive.target).isAbsolute = true

/-- The root of a directory tree is a directory, whatever the tree holds. -/
theorem Tree.read_root (t : Tree) (cwd : Location) :
    t.read cwd ⟨[Path.slash]⟩ = .ok [.fault .isDirectory] := by
  have hmoves : Move.ofPath ⟨[Path.slash]⟩ = [.stay] := by decide
  have hlocate : t.locate cwd ⟨[Path.slash]⟩ = .ok [] := by
    rw [locate, hmoves]
    simp [walk, entry?, base, Path.isAbsolute]
  rw [read, if_neg (by decide), if_neg (by decide), if_neg (by decide), hlocate]
  rfl

/-- In a directory tree the root directory has no targets. -/
theorem Tree.rootDirectoryStays (t : Tree) (cwd : Location) :
    RootDirectoryStays (t.fileSystem cwd) := by
  intro ds hds x hx
  rw [fileSystem, read_root] at hds
  cases hds
  rw [Scan.directives_of_fault] at hx
  cases hx

namespace Visited

variable {d p : Path} {v : Visited}

/-- All visited paths are normal forms that lie in the tree. -/
def Settled (v : Visited) : Prop := ∀ p ∈ v.paths, p.InTree

theorem Settled.insert (hv : v.Settled) (hp : p.InTree) : (v.insert p).Settled := by
  cases hc : v.contains p with
  | true => rwa [insert_of_contains hc]
  | false =>
      intro q hq
      rw [paths_insert_of_not_contains hc] at hq
      rcases List.mem_append.1 hq with hq | hq
      · exact hv q hq
      · rw [List.mem_singleton.1 hq]
        exact hp

theorem Settled.contains_iff (hv : v.Settled) (hp : p.InTree) :
    v.contains p = true ↔ p ∈ v.paths := by
  have hiff := Path.contains_normalize_iff (fun q hq => (hv q hq).normal) p
  rwa [hp.normal] at hiff

/-- The image of a path is visited just when the path is. -/
theorem Settled.contains_relocated (hd : d.isAbsolute = false) (hv : v.Settled) (hp : p.InTree) :
    (v.relocated d).contains (p.under d) = v.contains p := by
  have hnormal : ∀ q ∈ (v.relocated d).paths, q.normalize = q := fun q hq => by
    obtain ⟨q, hmem, rfl⟩ := List.mem_map.1 hq
    exact (hv q hmem).normalize_under d
  have himage := Path.contains_normalize_iff hnormal (p.under d)
  rw [hp.normalize_under] at himage
  rw [Bool.eq_iff_iff, himage, hv.contains_iff hp]
  refine ⟨fun h => ?_, fun h => List.mem_map_of_mem h⟩
  obtain ⟨q, hq, heq⟩ := List.mem_map.1 h
  rwa [← Path.InTree.under_injective hd (hv q hq) hp heq]

theorem Settled.relocated_insert (hd : d.isAbsolute = false) (hv : v.Settled) (hp : p.InTree) :
    (v.insert p).relocated d = (v.relocated d).insert (p.under d) := by
  have hcontains := hv.contains_relocated hd hp
  cases hc : v.contains p with
  | true => rw [insert_of_contains hc, insert_of_contains (hcontains.trans hc)]
  | false =>
      have hpaths := paths_insert_of_not_contains hc
      have hpaths' := paths_insert_of_not_contains (hcontains.trans hc)
      rw [relocated, hpaths, List.map_append]
      exact (congrArg Visited.mk hpaths').symm

end Visited

/-- A file that a walk is in, from further up. -/
def OpenFile.relocated (d root : Path) (f : OpenFile) : OpenFile :=
  { f with path := .placed d root f.path }

namespace Walk

open Signal (events)

variable {files files' : FileSystem} {limit : Option Nat} {d root p : Path} {n depth : Nat}
  {b b' : Position} {l : List Signal} {x : Located} {xs : List Located} {fault : Option Cause}
  {rest : List OpenFile} {v : Visited} {t : Tally}

/-- A position from further up. -/
def Position.relocated (d root : Path) (b : Position) : Position :=
  ⟨b.visited.relocated d, b.tally, b.stack.map (·.relocated d root)⟩

/-- The targets that are left in a file move along. -/
def TargetsMove (d root : Path) (f : OpenFile) : Prop :=
  ∀ x ∈ f.pending, x.directive.isFollowed = true →
    (Path.placed d root f.path).resolve x.directive.target =
      (f.path.resolve x.directive.target).under d

/-- What holds in a trace that does not leave the tree. -/
structure Settled (d root : Path) (b : Position) : Prop where
  visited : b.visited.Settled
  root_mem : b.visited.contains root.normalize = true
  targets : ∀ f ∈ b.stack, TargetsMove d root f

theorem TargetsMove.tail (h : TargetsMove d root ⟨p, x :: xs, fault, depth⟩) :
    TargetsMove d root ⟨p, xs, fault, depth⟩ :=
  fun y hy => h y (.tail _ hy)

/-- A directive of the file on top is dealt with. -/
theorem Settled.tail {t' : Tally} (h : Settled d root ⟨v, t, ⟨p, x :: xs, fault, depth⟩ :: rest⟩) :
    Settled d root ⟨v, t', ⟨p, xs, fault, depth⟩ :: rest⟩ := by
  refine ⟨h.visited, h.root_mem, fun f hf => ?_⟩
  rcases List.mem_cons.1 hf with rfl | hf
  · exact (h.targets _ (.head _)).tail
  · exact h.targets f (.tail _ hf)

/-! ## Events -/

theorem map_relocated_closing (d root p : Path) (fault : Option Cause) :
    (OpenFile.closing p fault).map (Event.relocated d root) =
      OpenFile.closing (.placed d root p) fault := by
  cases fault <;> rfl

theorem count_closing (t : Tally) (p q : Path) (fault : Option Cause) :
    (OpenFile.closing p fault).foldl Tally.count t =
      (OpenFile.closing q fault).foldl Tally.count t := by
  cases fault <;> rfl

/-! ## Steps -/

/-- The targets of a path that was entered behind the root move along. -/
theorem targetsMove_of_opened {ds : List Delivery} (hfiles : Relocates d root files files')
    (htop : RootDirectoryStays files) (hp : p.InTree) (hne : p ≠ root) (hf : files p = .ok ds) :
    TargetsMove d root
      ⟨p, (Scan.ofDeliveries ds).directives, (Scan.ofDeliveries ds).fault, depth⟩ := by
  intro x hx hfollowed
  rw [Path.placed, if_neg hne]
  rcases hp.endsIn_or with rfl | rfl | ⟨n, hn⟩
  · rw [hfiles.here ds hf] at hx
    cases hx
  · have hpath := Path.under_of_absolute (p := ⟨[Path.slash]⟩) rfl d
    have htarget := htop ds hf x hx hfollowed
    rw [hpath, Path.under_of_absolute]
    rw [Path.resolve_eq, Path.isAbsolute_normalize, Path.join_of_absolute htarget, htarget]
  · exact hn.resolve_under hp.normal d _

/-- Entering a path behind the root. -/
theorem Enters.relocated (hd : d.isAbsolute = false) (hfiles : Relocates d root files files')
    (htop : RootDirectoryStays files) (h : Enters files p depth b l b') (hb : Settled d root b)
    (hp : p.InTree) :
    Settled d root b' ∧ ∃ l', Enters files' (p.under d) depth (b.relocated d root) l'
      (b'.relocated d root) ∧ events l' = (events l).map (Event.relocated d root) := by
  have hcontains : (b.visited.relocated d).contains (p.under d).normalize =
      b.visited.contains p.normalize := by
    rw [hp.normalize_under, hp.normal]
    exact hb.visited.contains_relocated hd hp
  -- The root was entered before, so a path that is opened now is not spelled like it.
  have hplaced (hv : b.visited.contains p.normalize = false) :
      p ≠ root ∧ Path.placed d root p = p.under d := by
    have hne : p ≠ root := by
      rintro rfl
      rw [hb.root_mem] at hv
      cases hv
    exact ⟨hne, if_neg hne⟩
  have hfile : files' (p.under d) = files p := by
    cases hpa : p.isAbsolute with
    | true =>
        rw [Path.under_of_absolute hpa]
        exact hfiles.absolute p hpa
    | false =>
        rw [Path.under_of_relative hpa]
        exact hfiles.relative p hpa hp.normal hp.inside
  have hinsert : (b.visited.relocated d).insert (p.under d).normalize =
      (b.visited.insert p.normalize).relocated d := by
    rw [hp.normalize_under, hp.normal, hb.visited.relocated_insert hd hp]
  have hroot : (b.visited.insert p.normalize).contains root.normalize = true := by
    rw [Visited.contains_insert, hb.root_mem]
    rfl
  have hsettled : (b.visited.insert p.normalize).Settled := by
    rw [hp.normal]
    exact hb.visited.insert hp
  cases h with
  | again hv =>
      exact ⟨⟨hb.visited, hb.root_mem, hb.targets⟩, _, .again (hcontains.trans hv), rfl⟩
  | @missing cause hv hf =>
      refine ⟨⟨hsettled, hroot, hb.targets⟩, ?_⟩
      have hposition : Position.relocated d root ⟨b.visited.insert p.normalize,
          b.tally.count (.failed p .opening cause), b.stack⟩ =
          ⟨(b.visited.relocated d).insert (p.under d).normalize,
            b.tally.count (.failed (p.under d) .opening cause), (b.relocated d root).stack⟩ := by
        rw [hinsert]
        rfl
      rw [hposition]
      refine ⟨_, .missing (hcontains.trans hv) (hfile.trans hf), ?_⟩
      simp [Event.relocated, (hplaced hv).2]
  | @opened ds hv hf =>
      obtain ⟨hne, hpath⟩ := hplaced hv
      refine ⟨⟨hsettled, hroot, fun f hmem => ?_⟩, ?_⟩
      · rcases List.mem_cons.1 hmem with rfl | hmem
        · exact targetsMove_of_opened hfiles htop hp hne hf
        · exact hb.targets f hmem
      · have hposition : Position.relocated d root ⟨b.visited.insert p.normalize,
            b.tally.opened depth, ⟨p, (Scan.ofDeliveries ds).directives,
              (Scan.ofDeliveries ds).fault, depth⟩ :: b.stack⟩ =
            ⟨(b.visited.relocated d).insert (p.under d).normalize, b.tally.opened depth,
              ⟨p.under d, (Scan.ofDeliveries ds).directives, (Scan.ofDeliveries ds).fault, depth⟩ ::
                (b.relocated d root).stack⟩ := by
          rw [hinsert, ← hpath]
          rfl
        rw [hposition]
        exact ⟨_, .opened (hcontains.trans hv) (hfile.trans hf), rfl⟩

/-- A step. -/
theorem Move.relocated (hd : d.isAbsolute = false) (hfiles : Relocates d root files files')
    (htop : RootDirectoryStays files) (h : Move files limit b l b') (hb : Settled d root b)
    (hl : ∀ p, .enter p ∈ events l → p.Inside) :
    Settled d root b' ∧ ∃ l', Move files' limit (b.relocated d root) l' (b'.relocated d root)
      ∧ events l' = (events l).map (Event.relocated d root) := by
  cases h with
  | @leave v t p fault depth rest =>
      refine ⟨⟨hb.visited, hb.root_mem, fun f hf => hb.targets f (.tail _ hf)⟩,
        (OpenFile.closing (.placed d root p) fault).map .event, ?_, ?_⟩
      · rw [count_closing t p (.placed d root p)]
        exact .leave
      · rw [Signal.events_map_event, Signal.events_map_event, map_relocated_closing]
  | skip hx => exact ⟨hb.tail, _, .skip hx, rfl⟩
  | limited hx hlimit => exact ⟨hb.tail, _, .limited hx hlimit, rfl⟩
  | @follow v t p x xs fault depth rest l b' hx hlimit he =>
      have htarget := hb.targets _ (.head _) x (.head _) hx
      have hmem : .enter (p.resolve x.directive.target) ∈ events l := by
        cases he <;> simp
      obtain ⟨hb', l', he', hev⟩ := he.relocated hd hfiles htop hb.tail
        ⟨Path.normalize_resolve _ _, hl _ (.tail _ hmem)⟩
      rw [← htarget] at he'
      refine ⟨hb', .event (.found (.placed d root p) x) :: l', .follow hx hlimit he', ?_⟩
      simp [hev, Event.relocated]

/-- A number of steps. -/
theorem Moves.relocated (hd : d.isAbsolute = false) (hfiles : Relocates d root files files')
    (htop : RootDirectoryStays files) (h : Moves files limit n b l b') (hb : Settled d root b)
    (hl : ∀ p, .enter p ∈ events l → p.Inside) :
    ∃ l', Moves files' limit n (b.relocated d root) l' (b'.relocated d root)
      ∧ events l' = (events l).map (Event.relocated d root) := by
  induction h with
  | refl => exact ⟨[], .refl, rfl⟩
  | head hm _ ih =>
      rw [Signal.events_append] at hl
      obtain ⟨hb', l₁, hm', hev₁⟩ := hm.relocated hd hfiles htop hb fun p hp =>
        hl p (List.mem_append_left _ hp)
      obtain ⟨l₂, hms', hev₂⟩ := ih hb' fun p hp => hl p (List.mem_append_right _ hp)
      refine ⟨l₁ ++ l₂, .head hm' hms', ?_⟩
      rw [Signal.events_append, Signal.events_append, List.map_append, hev₁, hev₂]

/-- Entering the root. -/
theorem Enters.relocated_root {n : Bytes} (hname : root.EndsIn n) (hin : root.normalize.Inside)
    (hfiles : Relocates d root files files') (h : Enters files root 0 (.init .empty) l b) :
    Settled d root b ∧ ∃ l' es, Enters files' (d.join root) 0 (.init .empty) l' (b.relocated d root)
      ∧ events l = .enter root :: es
      ∧ events l' = .enter (d.join root) :: es.map (Event.relocated d root) := by
  have hplaced : Path.placed d root root = d.join root := if_pos rfl
  have hvisited : (Visited.empty.insert root.normalize).relocated d =
      Visited.empty.insert (d.join root).normalize := by
    rw [← Path.under_normalize]
    rfl
  have hsettled : (Visited.empty.insert root.normalize).Settled :=
    Visited.Settled.insert nofun ⟨Path.normalize_normalize root, hin⟩
  have hroot : (Visited.empty.insert root.normalize).contains root.normalize = true := by
    simp [Visited.contains_insert]
  cases h with
  | again hv => cases hv
  | @missing cause hv hf =>
      refine ⟨⟨hsettled, hroot, nofun⟩, ?_⟩
      have hposition : Position.relocated d root ⟨Visited.empty.insert root.normalize,
          Tally.count {} (.failed root .opening cause), []⟩ =
          ⟨Visited.empty.insert (d.join root).normalize,
            Tally.count {} (.failed (d.join root) .opening cause), []⟩ := by
        rw [← hvisited]
        rfl
      rw [Position.init, hposition]
      refine ⟨_, [.failed root .opening cause], .missing rfl (hfiles.root.trans hf), rfl, ?_⟩
      simp [Event.relocated, hplaced]
  | @opened ds hv hf =>
      refine ⟨⟨hsettled, hroot, fun f hmem => ?_⟩, ?_⟩
      · cases List.mem_singleton.1 hmem
        intro x _ _
        rw [hplaced]
        exact hname.resolve_join d _
      · have hposition : Position.relocated d root ⟨Visited.empty.insert root.normalize,
            Tally.opened {} 0, [⟨root, (Scan.ofDeliveries ds).directives,
              (Scan.ofDeliveries ds).fault, 0⟩]⟩ =
            ⟨Visited.empty.insert (d.join root).normalize, Tally.opened {} 0,
              [⟨d.join root, (Scan.ofDeliveries ds).directives,
                (Scan.ofDeliveries ds).fault, 0⟩]⟩ := by
          rw [← hvisited, ← hplaced]
          rfl
        rw [Position.init, hposition]
        exact ⟨_, [], .opened rfl (hfiles.root.trans hf), rfl, rfl⟩

/-! ## Traces -/

/-- A trace from further up tells what the trace from the directory of the tree tells.  `d` is any
relative path for this directory.  The tree must not be left: neither the normal form of the root
nor a path that is entered behind it begins with `..`.  The last component of the root is a name.
The directory of the tree has no directives, and the root directory has none that lead to relative
targets.  Then the root is entered as `d` joined with it, the other paths are moved under `d`, and
the totals are the same. -/
theorem outcome_of_relocates {σ τ : Type} {c : Context σ} {c' : Context τ} {s : σ} {s' : τ}
    (hs : c.sink.NeverRefuses s) (hs' : c'.sink.NeverRefuses s') (hlimit : c'.maxDepth = c.maxDepth)
    {d root : Path} {name : Bytes} (hd : d.isAbsolute = false) (hname : root.EndsIn name)
    (hfiles : Relocates d root c.files c'.files) (htop : RootDirectoryStays c.files)
    {fuel : Nat} {o : Outcome} (h : outcome c fuel root .empty s = some o)
    (hroot : root.normalize.Inside) (hinside : ∀ p, .enter p ∈ o.events.tail → p.Inside) :
    ∃ o' es t, outcome c' fuel (d.join root) .empty s' = some o'
      ∧ o.events = .enter root :: es
      ∧ o'.events = .enter (d.join root) :: es.map (Event.relocated d root)
      ∧ o.result = .ok t ∧ o'.result = .ok t
      ∧ o'.visited = o.visited.relocated d := by
  obtain ⟨n, _, b, ⟨he, hms⟩, hb, hn, rfl⟩ := (outcome_eq_some_iff_of_neverRefuses hs).1 h
  rename_i b₀ l₁ l₂
  obtain ⟨hsettled, l₁', es, he', hes, hes'⟩ := he.relocated_root hname hroot hfiles
  have hevents : events (.note (.traceStarts root) :: (l₁ ++ l₂)) =
      .enter root :: (es ++ events l₂) := by
    rw [Signal.events_note, Signal.events_append, hes]
    rfl
  simp only [hevents, List.tail_cons] at hinside
  obtain ⟨l₂', hms', hev⟩ := hms.relocated hd hfiles htop hsettled fun p hp =>
    hinside p (List.mem_append_right _ hp)
  rw [← hlimit] at hms'
  have hend : (b.relocated d root).stack = [] := by
    rw [Position.relocated, hb]
    rfl
  have ho' : outcome c' fuel (d.join root) .empty s' = _ :=
    (outcome_eq_some_iff_of_neverRefuses hs').2 ⟨n, _, _, .intro he' hms', hend, hn, rfl⟩
  refine ⟨_, es ++ events l₂, b.tally, ho', hevents, ?_, rfl, rfl, rfl⟩
  show events _ = _
  rw [Signal.events_note, Signal.events_append, hes', hev, List.map_append]
  rfl

/-- Files with the normal forms in a table, moved under `d`. -/
def filesUnder (d : Path) : List (Path × List Delivery) → FileSystem
  | [], _ => .error .notFound
  | (q, ds) :: table, p => if q.under d = p.normalize then .ok ds else filesUnder d table p

/-- A table holds normal forms in the tree. -/
def TableInside (table : List (Path × List Delivery)) : Prop :=
  ∀ e ∈ table, e.1.InTree

theorem filesUnder_eq {table : List (Path × List Delivery)} {p' : Path} (hd : d.isAbsolute = false)
    (htable : TableInside table) (hp : p.normalize.Inside)
    (h : p'.normalize = p.normalize.under d) :
    filesUnder d table p' = filesUnder .empty table p := by
  induction table with
  | nil => rfl
  | cons e table ih =>
      obtain ⟨q, ds⟩ := e
      have hq : q.InTree := htable (q, ds) (.head _)
      have hempty : q.under .empty = q := by
        rw [← hq.normal, Path.under_normalize, Path.empty_join]
      have hiff : q.under d = p'.normalize ↔ q.under .empty = p.normalize := by
        rw [h, hempty]
        exact ⟨Path.InTree.under_injective hd hq ⟨Path.normalize_normalize p, hp⟩,
          congrArg (Path.under · d)⟩
      rw [filesUnder, filesUnder, ih fun e he => htable e (.tail _ he)]
      simp only [hiff]

/-- Files of a table are moved as they should be. -/
theorem relocates_filesUnder {table : List (Path × List Delivery)} (hd : d.isAbsolute = false)
    (htable : TableInside table) (hroot : root.normalize.Inside)
    (hhere : (filesUnder .empty table ⟨Component.dot⟩).isOk = false) :
    Relocates d root (filesUnder .empty table) (filesUnder d table) where
  root := filesUnder_eq hd htable hroot (Path.under_normalize root d).symm
  relative := fun p _ hp hp' => by
    refine filesUnder_eq hd htable (by rwa [hp]) ?_
    rw [Path.normalize_normalize, Path.under_normalize]
  absolute := fun p hp => by
    have hp' : p.normalize.isAbsolute = true := by rw [Path.isAbsolute_normalize, hp]
    exact filesUnder_eq hd htable (Path.inside_of_absolute hp') (Path.under_of_absolute hp' d).symm
  here := fun ds hds => by
    rw [hds] at hhere
    cases hhere

/-- Whether a path that is entered lies in the tree. -/
def staysInside : Event → Bool
  | .enter p => p.Inside
  | _ => true

theorem inside_of_all {es : List Event} (h : es.all staysInside = true) :
    ∀ p, .enter p ∈ es → p.Inside :=
  fun _ hp => of_decide_eq_true (List.all_eq_true.1 h _ hp)

/-! ### A tree that moves -/

/-- Two files that include each other.  The first one includes an absolute path as well, and the
second one includes a missing file and cannot be read to its end. -/
def movedTable : List (Path × List Delivery) :=
  [(.ofText "m".toList, [.bytes (Utf8.encode "#include \"h\"\n#include \"/t\"\n".toList)]),
    (.ofText "h".toList,
      [.bytes (Utf8.encode "#include \"s/../m\"\n#include \"x\"\n".toList), .fault (.system 5)]),
    (.ofText "/t".toList, [.bytes (Utf8.encode "#include \"u\"\n".toList)])]

/-- A trace of the files of the table, moved under `d`, into a journal. -/
def movedContext (d : Path) : Context Journal := ⟨filesUnder d movedTable, Journal.sink, none⟩

/-- The root is not spelled in normal form, and neither is the directory that it is moved to. -/
theorem outcome_of_relocates_moved :
    ∃ o o' es t, outcome (movedContext .empty) 20 (.ofText "./m".toList) .empty (.empty none)
          = some o
      ∧ outcome (movedContext (.ofText "a//b".toList)) 20 (.ofText "a//b/./m".toList) .empty
          (.empty none) = some o'
      ∧ o.events = .enter (.ofText "./m".toList) :: es ∧ es.length = 16
      ∧ o'.events = .enter (.ofText "a//b/./m".toList) ::
        es.map (Event.relocated (.ofText "a//b".toList) (.ofText "./m".toList))
      ∧ o.result = .ok t ∧ o'.result = .ok t := by
  have htable : TableInside movedTable := by
    simp only [TableInside, movedTable, List.forall_mem_cons]
    decide
  have hfiles : Relocates (.ofText "a//b".toList) (.ofText "./m".toList)
      (movedContext .empty).files (movedContext (.ofText "a//b".toList)).files :=
    relocates_filesUnder rfl htable (by decide) (by decide)
  have htop : RootDirectoryStays (movedContext .empty).files := by
    have hmissing : ((movedContext .empty).files ⟨[Path.slash]⟩).isOk = false := by decide
    intro ds hds
    rw [hds] at hmissing
    cases hmissing
  have hlimit : (movedContext (.ofText "a//b".toList)).maxDepth = (movedContext .empty).maxDepth :=
    rfl
  have hname : (Path.ofText "./m".toList).EndsIn (Utf8.encode "m".toList) := by decide
  have hmap : (outcome (movedContext .empty) 20 (.ofText "./m".toList) .empty (.empty none)).map
      (fun o => (o.events.tail.length, o.events.tail.all staysInside)) = some (16, true) := by
    decide +kernel
  obtain ⟨o, ho, heq⟩ := Option.map_eq_some_iff.1 hmap
  obtain ⟨hlen, hall⟩ := Prod.mk.inj heq
  have hjournal : Journal.sink.NeverRefuses (.empty none) := Journal.neverRefuses_of_unlimited rfl
  obtain ⟨o', es, t, ho', hes, hes', hres, hres', -⟩ := outcome_of_relocates hjournal hjournal
    hlimit rfl hname hfiles htop ho (by decide) (inside_of_all hall)
  rw [hes] at hlen
  exact ⟨o, o', es, t, ho, ho', hes, hlen, hes', hres, hres'⟩

end Walk

end IncludeTrace
