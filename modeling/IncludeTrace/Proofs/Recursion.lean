import IncludeTrace.Proofs.Outcome

/-!
# The walk as a recursion

`visit` is the walk written as a recursion: to visit a path is to enter it, to
deal with its directives one by one, with a whole visit for each target that is
followed, and to close it.  There is no stack and no sink; what happens is added
to a `Progress`.  The first argument bounds the nesting of visits, and a larger
bound never changes a result (`visit_mono`).

The steps of the walk and the recursion agree.  A visit is a run of steps that
begins and ends with the same stack (`moves_of_visit`), and steps that leave all
files begin with the treatment of the file on top (`beginsWithTop`).  So a trace
ends if and only if the recursion does, with the same events, visited paths and
totals.
-/

namespace IncludeTrace

namespace Walk

open Signal (events)

/-- What has happened so far. -/
structure Progress where
  /-- The events, oldest first. -/
  events : List Event
  /-- The visited paths. -/
  visited : Visited
  /-- The totals. -/
  tally : Tally

namespace Progress

/-- Nothing but paths that were visited before. -/
def init (v : Visited) : Progress := ⟨[], v, {}⟩

/-- An event happens. -/
def emit (g : Progress) (e : Event) : Progress := ⟨g.events ++ [e], g.visited, g.tally.count e⟩

/-- A path is visited. -/
def mark (g : Progress) (p : Path) : Progress := { g with visited := g.visited.insert p }

/-- A file is opened at a depth. -/
def opened (g : Progress) (depth : Nat) : Progress := { g with tally := g.tally.opened depth }

/-- A path was visited before. -/
def duplicate (g : Progress) : Progress := { g with tally := g.tally.duplicate }

/-- A target is too deep. -/
def limited (g : Progress) : Progress := { g with tally := g.tally.limited }

/-- A file is closed, after the failure that ended its scan early. -/
def close (g : Progress) (p : Path) : Option Cause → Progress
  | none => g.emit (.close p)
  | some cause => (g.emit (.failed p .reading cause)).emit (.close p)

end Progress

/-- Deals with a directive of a file.  A target that is followed is left to `descend`. -/
def treat (limit : Option Nat) (descend : Path → Nat → Progress → Option Progress) (p : Path)
    (depth : Nat) (g : Progress) (d : Located) : Option Progress :=
  let g := g.emit (.found p d)
  if d.directive.isFollowed then
    if limit.any (· ≤ depth) then some g.limited
    else descend (p.resolve d.directive.target) (depth + 1) g
  else some g

/-- Visits a path.  No result if more than the given number of visits are nested. -/
def visit (files : FileSystem) (limit : Option Nat) :
    Nat → Path → Nat → Progress → Option Progress
  | 0, _, _, _ => none
  | n + 1, p, depth, g =>
      let g := g.emit (.enter p)
      if g.visited.contains p.normalize then some g.duplicate
      else
        let g := g.mark p.normalize
        match files p with
        | .error cause => some (g.emit (.failed p .opening cause))
        | .ok deliveries =>
            let s := Scan.ofDeliveries deliveries
            (s.directives.foldlM (treat limit (visit files limit n) p depth) (g.opened depth)).map
              (·.close p s.fault)

variable {files : FileSystem} {limit : Option Nat} {n m : Nat} {p : Path} {depth : Nat}
  {g g' : Progress}

/-! ## Cases and induction -/

section Equations

variable {descend : Path → Nat → Progress → Option Progress} {d : Located} {cause : Cause}
  {deliveries : List Delivery}

theorem visit_again (hv : g.visited.contains p.normalize = true) :
    visit files limit (n + 1) p depth g = some (g.emit (.enter p)).duplicate :=
  if_pos hv

theorem visit_missing (hv : g.visited.contains p.normalize = false) (hf : files p = .error cause) :
    visit files limit (n + 1) p depth g =
      some (((g.emit (.enter p)).mark p.normalize).emit (.failed p .opening cause)) := by
  simp [visit, Progress.emit, hv, hf]

theorem visit_opened (hv : g.visited.contains p.normalize = false) (hf : files p = .ok deliveries) :
    visit files limit (n + 1) p depth g =
      ((Scan.ofDeliveries deliveries).directives.foldlM
        (treat limit (visit files limit n) p depth)
        (((g.emit (.enter p)).mark p.normalize).opened depth)).map
        (·.close p (Scan.ofDeliveries deliveries).fault) := by
  simp [visit, Progress.emit, hv, hf]

theorem treat_skip (hd : d.directive.isFollowed = false) :
    treat limit descend p depth g d = some (g.emit (.found p d)) := by
  simp [treat, hd]

theorem treat_limited (hd : d.directive.isFollowed = true) (hl : limit.any (· ≤ depth) = true) :
    treat limit descend p depth g d = some (g.emit (.found p d)).limited := by
  rw [treat, if_pos hd, if_pos hl]

theorem treat_follow (hd : d.directive.isFollowed = true) (hl : limit.any (· ≤ depth) = false) :
    treat limit descend p depth g d =
      descend (p.resolve d.directive.target) (depth + 1) (g.emit (.found p d)) := by
  rw [treat, if_pos hd, if_neg (by simp [hl])]

end Equations

/-- What a visit does, with the visits inside it left open. -/
theorem visit_cases (h : visit files limit (n + 1) p depth g = some g') :
    (g.visited.contains p.normalize = true ∧ g' = (g.emit (.enter p)).duplicate) ∨
    (∃ cause, g.visited.contains p.normalize = false ∧ files p = .error cause ∧
      g' = ((g.emit (.enter p)).mark p.normalize).emit (.failed p .opening cause)) ∨
    (∃ deliveries g₁, g.visited.contains p.normalize = false ∧ files p = .ok deliveries ∧
      (Scan.ofDeliveries deliveries).directives.foldlM (treat limit (visit files limit n) p depth)
        (((g.emit (.enter p)).mark p.normalize).opened depth) = some g₁ ∧
      g' = g₁.close p (Scan.ofDeliveries deliveries).fault) := by
  cases hv : g.visited.contains p.normalize with
  | true =>
      rw [visit_again hv] at h
      exact .inl ⟨rfl, (Option.some.inj h).symm⟩
  | false =>
      cases hf : files p with
      | error cause =>
          rw [visit_missing hv hf] at h
          exact .inr (.inl ⟨cause, rfl, rfl, (Option.some.inj h).symm⟩)
      | ok deliveries =>
          rw [visit_opened hv hf] at h
          obtain ⟨g₁, hg₁, he⟩ := Option.map_eq_some_iff.1 h
          exact .inr (.inr ⟨deliveries, g₁, rfl, rfl, hg₁, he.symm⟩)

/-- What is done with the first of several directives. -/
theorem foldlM_treat_cases {descend : Path → Nat → Progress → Option Progress} {d : Located}
    {ds : List Located} (h : (d :: ds).foldlM (treat limit descend p depth) g = some g') :
    (d.directive.isFollowed = false ∧
      ds.foldlM (treat limit descend p depth) (g.emit (.found p d)) = some g') ∨
    (d.directive.isFollowed = true ∧ limit.any (· ≤ depth) = true ∧
      ds.foldlM (treat limit descend p depth) (g.emit (.found p d)).limited = some g') ∨
    (∃ g₁, d.directive.isFollowed = true ∧ limit.any (· ≤ depth) = false ∧
      descend (p.resolve d.directive.target) (depth + 1) (g.emit (.found p d)) = some g₁ ∧
      ds.foldlM (treat limit descend p depth) g₁ = some g') := by
  rw [List.foldlM_cons] at h
  obtain ⟨g₁, hg₁, h⟩ := Option.bind_eq_some_iff.1 h
  cases hd : d.directive.isFollowed with
  | false =>
      rw [treat_skip hd] at hg₁
      cases hg₁
      exact .inl ⟨rfl, h⟩
  | true =>
      cases hl : limit.any (· ≤ depth) with
      | true =>
          rw [treat_limited hd hl] at hg₁
          cases hg₁
          exact .inr (.inl ⟨rfl, rfl, h⟩)
      | false =>
          rw [treat_follow hd hl] at hg₁
          exact .inr (.inr ⟨g₁, rfl, rfl, hg₁, h⟩)

/-- Induction over visits: `P` is about a path that is visited, and `Q` is about the directives of
a file that are left to deal with. -/
theorem visit_induction {P : Path → Nat → Progress → Progress → Prop}
    {Q : Path → Nat → List Located → Progress → Progress → Prop}
    (again : ∀ p depth g, g.visited.contains p.normalize = true →
      P p depth g (g.emit (.enter p)).duplicate)
    (missing : ∀ p depth g cause, g.visited.contains p.normalize = false →
      files p = .error cause →
      P p depth g (((g.emit (.enter p)).mark p.normalize).emit (.failed p .opening cause)))
    (opened : ∀ p depth g g' deliveries, g.visited.contains p.normalize = false →
      files p = .ok deliveries →
      Q p depth (Scan.ofDeliveries deliveries).directives
        (((g.emit (.enter p)).mark p.normalize).opened depth) g' →
      P p depth g (g'.close p (Scan.ofDeliveries deliveries).fault))
    (nil : ∀ p depth g, Q p depth [] g g)
    (skip : ∀ p depth g g' d ds, d.directive.isFollowed = false →
      Q p depth ds (g.emit (.found p d)) g' → Q p depth (d :: ds) g g')
    (limited : ∀ p depth g g' d ds, d.directive.isFollowed = true →
      limit.any (· ≤ depth) = true →
      Q p depth ds (g.emit (.found p d)).limited g' → Q p depth (d :: ds) g g')
    (follow : ∀ p depth g g₁ g' d ds, d.directive.isFollowed = true →
      limit.any (· ≤ depth) = false →
      P (p.resolve d.directive.target) (depth + 1) (g.emit (.found p d)) g₁ →
      Q p depth ds g₁ g' → Q p depth (d :: ds) g g')
    (h : visit files limit n p depth g = some g') : P p depth g g' := by
  induction n generalizing p depth g g' with
  | zero => simp [visit] at h
  | succ n ih =>
      have hfold : ∀ (ds : List Located) (g g' : Progress),
          ds.foldlM (treat limit (visit files limit n) p depth) g = some g' →
          Q p depth ds g g' := by
        intro ds
        induction ds with
        | nil =>
            intro g g' h
            cases h
            exact nil p depth g
        | cons d ds ihds =>
            intro g g' h
            rcases foldlM_treat_cases h with ⟨hd, h⟩ | ⟨hd, hl, h⟩ | ⟨g₁, hd, hl, hg₁, h⟩
            · exact skip p depth g g' d ds hd (ihds _ _ h)
            · exact limited p depth g g' d ds hd hl (ihds _ _ h)
            · exact follow p depth g g₁ g' d ds hd hl (ih hg₁) (ihds _ _ h)
      rcases visit_cases h with ⟨hv, rfl⟩ | ⟨cause, hv, hf, rfl⟩ | ⟨deliveries, g₁, hv, hf, hg₁, rfl⟩
      · exact again p depth g hv
      · exact missing p depth g cause hv hf
      · exact opened p depth g g₁ deliveries hv hf (hfold _ _ _ hg₁)

/-! ## More nesting -/

theorem foldlM_treat_mono {descend descend' : Path → Nat → Progress → Option Progress}
    {ds : List Located}
    (hd : ∀ p depth g g', descend p depth g = some g' → descend' p depth g = some g')
    (h : ds.foldlM (treat limit descend p depth) g = some g') :
    ds.foldlM (treat limit descend' p depth) g = some g' := by
  induction ds generalizing g with
  | nil => exact h
  | cons d ds ih =>
      rw [List.foldlM_cons]
      rcases foldlM_treat_cases h with ⟨hf, h⟩ | ⟨hf, hl, h⟩ | ⟨g₁, hf, hl, hg₁, h⟩
      · rw [treat_skip hf]
        exact ih h
      · rw [treat_limited hf hl]
        exact ih h
      · rw [treat_follow hf hl, hd _ _ _ _ hg₁]
        exact ih h

theorem visit_succ (h : visit files limit n p depth g = some g') :
    visit files limit (n + 1) p depth g = some g' := by
  induction n generalizing p depth g g' with
  | zero => simp [visit] at h
  | succ n ih =>
      rcases visit_cases h with ⟨hv, rfl⟩ | ⟨cause, hv, hf, rfl⟩ | ⟨ds, g₁, hv, hf, hg₁, rfl⟩
      · rw [visit_again hv]
      · rw [visit_missing hv hf]
      · rw [visit_opened hv hf, foldlM_treat_mono (fun _ _ _ _ => ih) hg₁, Option.map_some]

/-- A larger bound never changes a result. -/
theorem visit_mono (h : visit files limit n p depth g = some g') (hnm : n ≤ m) :
    visit files limit m p depth g = some g' := by
  induction hnm with
  | refl => exact h
  | step _ ih => exact visit_succ ih

/-! ## From visits to steps -/

/-- The position that belongs to a progress, with a stack. -/
def Progress.position (g : Progress) (stack : List OpenFile) : Position :=
  ⟨g.visited, g.tally, stack⟩

theorem Progress.position_close (g : Progress) (p : Path) (fault : Option Cause)
    (stack : List OpenFile) :
    (g.close p fault).position stack =
      ⟨g.visited, (OpenFile.closing p fault).foldl Tally.count g.tally, stack⟩ := by
  cases fault <;> rfl

theorem Progress.events_close (g : Progress) (p : Path) (fault : Option Cause) :
    (g.close p fault).events = g.events ++ OpenFile.closing p fault := by
  cases fault with
  | none => rfl
  | some cause => exact List.append_assoc ..

/-- A visit is a run of steps above any stack, which ends with that stack. -/
theorem moves_of_visit (h : visit files limit n p depth g = some g') (stack : List OpenFile) :
    ∃ l b k l', Enters files p depth (g.position stack) l b ∧
      Moves files limit k b l' (g'.position stack) ∧
      g'.events = g.events ++ events (l ++ l') := by
  refine visit_induction
    (P := fun p depth g g' => ∀ stack, ∃ l b k l',
      Enters files p depth (g.position stack) l b ∧
      Moves files limit k b l' (g'.position stack) ∧ g'.events = g.events ++ events (l ++ l'))
    (Q := fun p depth ds g g' => ∀ fault stack, ∃ k l,
      Moves files limit k (g.position (⟨p, ds, fault, depth⟩ :: stack)) l
        (g'.position (⟨p, [], fault, depth⟩ :: stack)) ∧ g'.events = g.events ++ events l)
    ?again ?missing ?opened ?nil ?skip ?limited ?follow h stack
  case again =>
    intro p depth g hv stack
    exact ⟨_, _, 0, [], .again hv, .refl, rfl⟩
  case missing =>
    intro p depth g cause hv hf stack
    exact ⟨_, _, 0, [], .missing hv hf, .refl, List.append_assoc ..⟩
  case opened =>
    intro p depth g g' deliveries hv hf ih stack
    obtain ⟨k, l, hms, hev⟩ := ih (Scan.ofDeliveries deliveries).fault stack
    have hleave : Move files limit
        (g'.position (⟨p, [], (Scan.ofDeliveries deliveries).fault, depth⟩ :: stack))
        ((OpenFile.closing p (Scan.ofDeliveries deliveries).fault).map .event)
        ((g'.close p (Scan.ofDeliveries deliveries).fault).position stack) := by
      rw [Progress.position_close]
      exact .leave
    refine ⟨_, _, k + 1, _, .opened hv hf, hms.trans (.single hleave), ?_⟩
    rw [Progress.events_close, hev]
    simp [Progress.opened, Progress.mark, Progress.emit]
  case nil =>
    intro p depth g fault stack
    exact ⟨0, [], .refl, (List.append_nil _).symm⟩
  case skip =>
    intro p depth g g' d ds hd ih fault stack
    obtain ⟨k, l, hms, hev⟩ := ih fault stack
    refine ⟨k + 1, _, .head (.skip hd) hms, ?_⟩
    rw [hev]
    simp [Progress.emit]
  case limited =>
    intro p depth g g' d ds hd hl ih fault stack
    obtain ⟨k, l, hms, hev⟩ := ih fault stack
    refine ⟨k + 1, _, .head (.limited hd hl) hms, ?_⟩
    rw [hev]
    simp [Progress.emit, Progress.limited]
  case follow =>
    intro p depth g g₁ g' d ds hd hl ihp ihq fault stack
    obtain ⟨l₁, b, k₁, l₂, he, hms₁, hev₁⟩ := ihp (⟨p, ds, fault, depth⟩ :: stack)
    obtain ⟨k₂, l₃, hms₂, hev₂⟩ := ihq fault stack
    refine ⟨k₁ + k₂ + 1, _, .head (.follow hd hl he) (hms₁.trans hms₂), ?_⟩
    rw [hev₂, hev₁]
    simp [Progress.emit]

/-! ## From steps to visits -/

/-- The walk stays where it is once it has left all files. -/
theorem Moves.of_stack_nil {b b' : Position} {l : List Signal} (h : Moves files limit n b l b')
    (hb : b.stack = []) : l = [] ∧ b' = b := by
  cases h with
  | refl => exact ⟨rfl, rfl⟩
  | head hm _ => exact absurd hb hm.stack_ne_nil

/-- The `n` steps up to `b` begin with the treatment of the file on top, up to its closing. -/
def BeginsWithTop (files : FileSystem) (limit : Option Nat) (n : Nat) (b : Position) : Prop :=
  ∀ ⦃g : Progress⦄ ⦃p : Path⦄ ⦃ds : List Located⦄ ⦃fault : Option Cause⦄ ⦃depth : Nat⦄
    ⦃stack : List OpenFile⦄ ⦃l : List Signal⦄,
    Moves files limit n (g.position (⟨p, ds, fault, depth⟩ :: stack)) l b →
    ∃ k g₁ n' l₁ l₂,
      ds.foldlM (treat limit (visit files limit k) p depth) g = some g₁ ∧ n' < n ∧
      Moves files limit n' ((g₁.close p fault).position stack) l₂ b ∧ l = l₁ ++ l₂ ∧
      (g₁.close p fault).events = g.events ++ events l₁

/-- Entering a path and the steps after it begin with a visit of the path. -/
theorem visit_of_enters {stack : List OpenFile} {l l' : List Signal} {b b₁ : Position}
    (htop : BeginsWithTop files limit n b) (he : Enters files p depth (g.position stack) l b₁)
    (hms : Moves files limit n b₁ l' b) :
    ∃ k g₁ n' l₁ l₂, visit files limit k p depth g = some g₁ ∧ n' ≤ n ∧
      Moves files limit n' (g₁.position stack) l₂ b ∧ l ++ l' = l₁ ++ l₂ ∧
      g₁.events = g.events ++ events l₁ := by
  cases he with
  | again hv => exact ⟨1, _, n, _, l', visit_again hv, Nat.le_refl n, hms, rfl, rfl⟩
  | missing hv hf =>
      exact ⟨1, _, n, _, l', visit_missing hv hf, Nat.le_refl n, hms, rfl, List.append_assoc ..⟩
  | opened hv hf =>
      obtain ⟨k, g₁, n', l₁, l₂, hfold, hn', hms', rfl, hev⟩ :=
        htop (g := ((g.emit (.enter p)).mark p.normalize).opened depth) hms
      refine ⟨k + 1, _, n', _, l₂, ?_, Nat.le_of_lt hn', hms', (List.append_assoc ..).symm, ?_⟩
      · rw [visit_opened hv hf, hfold, Option.map_some]
      · rw [hev]
        simp [Progress.emit, Progress.mark, Progress.opened]

/-- Steps that leave all files begin with the treatment of the file on top. -/
theorem beginsWithTop {b : Position} (hb : b.stack = []) (n : Nat) :
    BeginsWithTop files limit n b := by
  -- The steps after an opened target are split twice, so the induction is on their number.
  induction n using Nat.strongRecOn with
  | _ n ih =>
      intro g p ds fault depth stack l h
      cases h with
      | refl => simp [Progress.position] at hb
      | @head n _ b₁ _ l₁ l₂ hm hms =>
          cases hm with
          | leave =>
              refine ⟨0, g, n, _, l₂, rfl, Nat.lt_succ_self n, ?_, rfl, ?_⟩
              · rw [Progress.position_close]
                exact hms
              · rw [Progress.events_close, Signal.events_map_event]
          | @skip _ _ _ d ds _ _ _ hd =>
              obtain ⟨k, g₁, n', l₃, l₄, hfold, hn', hms', rfl, hev⟩ :=
                ih n (Nat.lt_succ_self n) (g := g.emit (.found p d)) hms
              refine ⟨k, g₁, n', _, l₄, ?_, by omega, hms', (List.append_assoc ..).symm, ?_⟩
              · rw [List.foldlM_cons, treat_skip hd]
                exact hfold
              · rw [hev]
                simp [Progress.emit]
          | @limited _ _ _ d ds _ _ _ hd hl =>
              obtain ⟨k, g₁, n', l₃, l₄, hfold, hn', hms', rfl, hev⟩ :=
                ih n (Nat.lt_succ_self n) (g := (g.emit (.found p d)).limited) hms
              refine ⟨k, g₁, n', _, l₄, ?_, by omega, hms', (List.append_assoc ..).symm, ?_⟩
              · rw [List.foldlM_cons, treat_limited hd hl]
                exact hfold
              · rw [hev]
                simp [Progress.emit, Progress.limited]
          | @follow _ _ _ d ds _ _ _ l _ hd hl he =>
              -- First the visit of the target, then what is left of the file.
              obtain ⟨k₁, g₂, n₂, l₃, l₄, hvisit, hn₂, hms₂, hl₂, hev₂⟩ :=
                visit_of_enters (g := g.emit (.found p d)) (ih n (Nat.lt_succ_self n)) he hms
              obtain ⟨k₂, g₁, n', l₅, l₆, hfold, hn', hms', rfl, hev⟩ := ih n₂ (by omega) hms₂
              refine ⟨max k₁ k₂, g₁, n', .event (.found p d) :: (l₃ ++ l₅), l₆, ?_, by omega, hms',
                by simp [hl₂], ?_⟩
              · rw [List.foldlM_cons, treat_follow hd hl, visit_mono hvisit (Nat.le_max_left ..)]
                exact foldlM_treat_mono (fun _ _ _ _ h => visit_mono h (Nat.le_max_right ..)) hfold
              · rw [hev, hev₂]
                simp [Progress.emit]

/-- A trace that leaves all files does what the recursion does, and the other way round. -/
theorem exists_visit_iff {root : Path} {v : Visited} :
    (∃ n, visit files limit n root 0 (.init v) = some g) ↔
      ∃ n l b, TraceTo files limit root v n l b ∧ b.stack = [] ∧
        g = ⟨events l, b.visited, b.tally⟩ := by
  constructor
  · rintro ⟨n, h⟩
    obtain ⟨l, b, k, l', he, hms, hev⟩ := moves_of_visit h []
    refine ⟨k, _, _, .intro he hms, rfl, ?_⟩
    have hev' : g.events = events (l ++ l') := hev
    rw [Signal.events_note, ← hev']
    rfl
  · rintro ⟨n, _, b, ⟨he, hms⟩, hb, rfl⟩
    obtain ⟨k, g₁, n', l₁, l₂, hvisit, -, hms', hl, hev⟩ :=
      visit_of_enters (g := .init v) (beginsWithTop hb n) he hms
    obtain ⟨rfl, rfl⟩ := hms'.of_stack_nil rfl
    refine ⟨k, hvisit.trans ?_⟩
    have hev' : g₁.events = events l₁ := hev
    rw [Signal.events_note, hl, List.append_nil, ← hev']
    rfl

/-! ## Traces are visits -/

/-- The outcomes of a trace whose sink never refuses are those of the recursion: the trace of
`root` ends just when the visit of `root` does, with the same events in the same order, the same
visited paths and the same totals. -/
theorem outcome_iff_visit {σ : Type} (c : Context σ) {s : σ} (hs : c.sink.NeverRefuses s)
    (root : Path) (v : Visited) (o : Outcome) :
    (∃ fuel, outcome c fuel root v s = some o) ↔
      ∃ n g, visit c.files c.maxDepth n root 0 (.init v) = some g ∧
        o = ⟨g.events, g.visited, .ok g.tally⟩ := by
  constructor
  · rintro ⟨fuel, h⟩
    obtain ⟨n, l, b, ht, hb, -, rfl⟩ := (outcome_eq_some_iff_of_neverRefuses hs).1 h
    obtain ⟨k, hk⟩ := exists_visit_iff.2 ⟨n, l, b, ht, hb, rfl⟩
    exact ⟨k, _, hk, rfl⟩
  · rintro ⟨k, g, hk, rfl⟩
    obtain ⟨n, l, b, ht, hb, rfl⟩ := exists_visit_iff.1 ⟨k, hk⟩
    exact ⟨n + 1,
      (outcome_eq_some_iff_of_neverRefuses hs).2 ⟨n, l, b, ht, hb, Nat.lt_succ_self n, rfl⟩⟩

/-- A trace with a limit of one ends, so the recursion does. -/
theorem outcome_iff_visit_mutual :
    ∃ o, outcome ⟨mutualFiles, Journal.sink, some 1⟩ 20 (.ofText "./m".toList) .empty (.empty none)
        = some o
      ∧ o.events.length = 8
      ∧ ∃ n g, visit mutualFiles (some 1) n (.ofText "./m".toList) 0 (.init .empty) = some g
        ∧ o = ⟨g.events, g.visited, .ok g.tally⟩ := by
  have hmap : (outcome ⟨mutualFiles, Journal.sink, some 1⟩ 20 (.ofText "./m".toList) .empty
      (.empty none)).map (·.events.length) = some 8 := by decide +kernel
  obtain ⟨o, ho, hlen⟩ := Option.map_eq_some_iff.1 hmap
  refine ⟨o, ho, hlen, ?_⟩
  exact (outcome_iff_visit ⟨mutualFiles, Journal.sink, some 1⟩
    (Journal.neverRefuses_of_unlimited rfl) _ _ o).1 ⟨20, ho⟩

end Walk

end IncludeTrace
