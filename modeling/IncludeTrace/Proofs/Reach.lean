import IncludeTrace.Proofs.Account

/-!
# The files a trace reaches

A trace without a limit visits the files that can be reached from its root by way
of directives, past the files that were visited before (`Reached`).  The root is
opened by the path that was given, and every other file by its normal form.

Both halves are read off the events.  A file is entered only as the root or as the
target of a directive that was found (`Linked.reached`), so what is visited is
reached.  A directive that is followed and found has its target entered
(`Linked.follows`), and of a file that is opened all directives are found, by the
account of the file; so what is reached is visited.
-/

namespace IncludeTrace

/-- Whether an event enters a file or is about a directive that is followed. -/
def Event.leads : Event → Bool
  | .enter _ => true
  | .found _ d => d.directive.isFollowed
  | .failed _ _ _ | .close _ => false

namespace Walk

open Signal (events)

/-- The path by which a trace of a root opens the file `k`. -/
def spelling (root k : Path) : Path := if k = root.normalize then root else k

/-- The files that are reached from a root, past those in `v`. -/
inductive Reached (files : FileSystem) (root : Path) (v : Visited) : Path → Prop where
  | root : v.contains root.normalize = false → Reached files root v root.normalize
  | step {k : Path} {d : Located} : Reached files root v k →
      d ∈ files.directivesAt (spelling root k) → d.directive.isFollowed = true →
      v.contains ((spelling root k).resolve d.directive.target) = false →
      Reached files root v ((spelling root k).resolve d.directive.target)

/-- How the events of a trace lead from one file to the next. -/
structure Linked (files : FileSystem) (root : Path) (v : Visited) (es : List Event) : Prop where
  /-- The root is entered first. -/
  first : ∃ es', es = .enter root :: es'
  /-- Other files are entered by their normal forms. -/
  normal : ∀ p, .enter p ∈ es → p = root ∨ p.normalize = p
  /-- The targets of directives are entered. -/
  follows : ∀ p d, .found p d ∈ es → d.directive.isFollowed = true →
    .enter (p.resolve d.directive.target) ∈ es
  /-- Only files that are reached are entered, apart from those visited before. -/
  reached : ∀ p, .enter p ∈ es → v.contains p.normalize = false →
    Reached files root v p.normalize

section Linked

variable {files : FileSystem} {root p k : Path} {v : Visited} {es es' : List Event}
  {stack : List OpenFile} {fault : Option Cause} {depth n : Nat} {d : Located} {ds : List Located}
  {b b' : Position} {l : List Signal}

theorem Linked.init (files : FileSystem) (root : Path) (v : Visited) :
    Linked files root v [.enter root] where
  first := ⟨[], rfl⟩
  normal := by
    intro p hp
    cases List.mem_singleton.1 hp
    exact .inl rfl
  follows := by simp
  reached := by
    intro p hp hv
    cases List.mem_singleton.1 hp
    exact .root hv

/-- Events that do not lead anywhere change nothing. -/
theorem Linked.append (h : Linked files root v es) (hq : ∀ e ∈ es', e.leads = false) :
    Linked files root v (es ++ es') := by
  have henter : ∀ p, .enter p ∈ es ++ es' → .enter p ∈ es := by
    intro p hp
    rcases List.mem_append.1 hp with hp | hp
    · exact hp
    · cases hq _ hp
  refine ⟨?_, fun p hp => h.normal p (henter p hp), ?_, fun p hp => h.reached p (henter p hp)⟩
  · obtain ⟨es₁, rfl⟩ := h.first
    exact ⟨es₁ ++ es', rfl⟩
  · intro p d hp hd
    rcases List.mem_append.1 hp with hp | hp
    · exact List.mem_append_left _ (h.follows p d hp hd)
    · have := hq _ hp
      simp [Event.leads, hd] at this

/-- The path by which a file is opened is determined by its normal form. -/
theorem spelling_eq_of_openedAs? (hfirst : ∃ es', es = .enter root :: es')
    (hnormal : ∀ p, .enter p ∈ es → p = root ∨ p.normalize = p) (ho : openedAs? v k es = some p) :
    spelling root k = p := by
  obtain ⟨hv, hmem, rfl⟩ := openedAs?_eq_some ho
  unfold spelling
  split
  · rename_i hroot
    obtain ⟨es', rfl⟩ := hfirst
    rw [hroot] at hv ho
    simpa [openedAs?, hv, Event.entered?] using ho
  · rename_i hroot
    rcases hnormal p hmem with rfl | hp
    · exact absurd rfl hroot
    · exact hp

theorem Linked.spelling_eq (h : Linked files root v es) (ho : openedAs? v k es = some p) :
    spelling root k = p :=
  spelling_eq_of_openedAs? h.first h.normal ho

theorem Linked.follow (h : Linked files root v es)
    (ha : Accounted files v es (⟨p, d :: ds, fault, depth⟩ :: stack))
    (hd : d.directive.isFollowed = true) :
    Linked files root v (es ++ [.found p d, .enter (p.resolve d.directive.target)]) := by
  obtain ⟨hopen, hds⟩ := ha.top
  obtain ⟨hv, hmem, -⟩ := openedAs?_eq_some hopen
  have hp := h.spelling_eq hopen
  refine ⟨?_, ?_, ?_, ?_⟩
  · obtain ⟨es₁, rfl⟩ := h.first
    exact ⟨_, rfl⟩
  · intro q hq
    rcases List.mem_append.1 hq with hq | hq
    · exact h.normal q hq
    · obtain rfl : q = p.resolve d.directive.target := by simpa using hq
      exact .inr (Path.normalize_resolve _ _)
  · intro q d' hq hd'
    rcases List.mem_append.1 hq with hq | hq
    · exact List.mem_append_left _ (h.follows q d' hq hd')
    · obtain ⟨rfl, rfl⟩ : q = p ∧ d' = d := by simpa using hq
      simp
  · intro q hq hvq
    rcases List.mem_append.1 hq with hq | hq
    · exact h.reached q hq hvq
    · obtain rfl : q = p.resolve d.directive.target := by simpa using hq
      rw [Path.normalize_resolve] at hvq ⊢
      have hstep := @Reached.step files root v p.normalize d (h.reached p hmem hv)
      rw [hp] at hstep
      exact hstep (hds d List.mem_cons_self) hd hvq

theorem Enters.events_eq (h : Enters files p depth b l b') :
    ∃ es, events l = .enter p :: es ∧ ∀ e ∈ es, e.leads = false := by
  cases h with
  | again hv => exact ⟨[], rfl, by simp⟩
  | @missing cause hv hf => exact ⟨[.failed p .opening cause], rfl, by simp [Event.leads]⟩
  | opened hv hf => exact ⟨[], rfl, by simp⟩

theorem Move.linked (hm : Move files none b l b') (h : Linked files root v es)
    (ha : Accounted files v es b.stack) : Linked files root v (es ++ events l) := by
  cases hm with
  | @leave _ _ p fault _ _ =>
      refine h.append ?_
      cases fault <;> simp [OpenFile.closing, Event.leads]
  | skip hd => exact h.append (by simpa [Event.leads] using hd)
  | limited hd hl => cases hl
  | @follow _ _ p d _ _ _ _ l _ hd hl he =>
      obtain ⟨rest, hl, hrest⟩ := he.events_eq
      have := (h.follow ha hd).append hrest
      rw [Signal.events_event, hl]
      rwa [List.append_assoc] at this

/-- The events of a trace without a limit are linked. -/
theorem TraceTo.linked (ht : TraceTo files none root v n l b) : Linked files root v (events l) := by
  cases ht with
  | intro he hm =>
      obtain ⟨rest, hl, hrest⟩ := he.events_eq
      have hfirst := (Linked.init files root v).append hrest
      rw [List.singleton_append, ← hl] at hfirst
      rw [Signal.events_note, Signal.events_append]
      refine (hm.invariant (I := fun es b => Tracks files v es b ∧ Linked files root v es)
        ?_ ⟨he.tracks (.init files v), hfirst⟩).2
      rintro es b l b' h₁ ⟨ht, h⟩
      exact ⟨h₁.tracks ht, h₁.linked h ht.accounted⟩

/-- Every file that is reached is opened. -/
theorem Linked.openedAs?_of_reached (h : Linked files root v es) (ha : Accounted files v es [])
    (hk : Reached files root v k) : openedAs? v k es = some (spelling root k) := by
  induction hk with
  | root hv =>
      obtain ⟨es', rfl⟩ := h.first
      simp [openedAs?, hv, Event.entered?, spelling]
  | @step k d _ hd hf hv ih =>
      -- All directives of the file `k` were found, so the target was entered.
      have htold : told k es = script files (spelling root k) := by
        rw [ha.told_eq k, ih, Option.elim_some]
      have hfound : .found (spelling root k) d ∈ told k es := htold ▸ found_mem_script.2 hd
      have henter := h.follows _ _ (List.mem_filter.1 hfound).1 hf
      obtain ⟨p, hp⟩ := exists_openedAs?_iff.2 ⟨hv, _, henter, Path.normalize_resolve _ _⟩
      rw [hp, h.spelling_eq hp]

/-- A file is opened if and only if it is reached. -/
theorem Linked.exists_openedAs?_iff_reached (h : Linked files root v es)
    (ha : Accounted files v es []) :
    (∃ p, openedAs? v k es = some p) ↔ Reached files root v k := by
  constructor
  · rintro ⟨p, hp⟩
    obtain ⟨hv, hmem, rfl⟩ := openedAs?_eq_some hp
    exact h.reached p hmem hv
  · intro hk
    exact ⟨_, h.openedAs?_of_reached ha hk⟩

end Linked

/-! ## What is visited -/

theorem contains_insert_normalize {v : Visited} {p q : Path} :
    (v.insert p.normalize).contains q.normalize = false ↔
      v.contains q.normalize = false ∧ p.normalize ≠ q.normalize := by
  simp [Visited.contains_insert, Path.normalize_eq_iff]

/-- The paths that events add to the visited ones are the normal forms of the paths they enter,
apart from those that were visited before. -/
theorem paths_entered (v : Visited) (es : List Event) :
    ∃ added, (v.entered es).paths = v.paths ++ added
      ∧ ∀ k, k ∈ added ↔ v.contains k = false ∧ ∃ p, .enter p ∈ es ∧ p.normalize = k := by
  induction es generalizing v with
  | nil => exact ⟨[], by simp, by simp⟩
  | cons e es ih =>
      cases e with
      | found p d => simpa using ih v
      | failed p stage cause => simpa using ih v
      | close p => simpa using ih v
      | enter p =>
          obtain ⟨added, hpaths, hadded⟩ := ih (v.insert p.normalize)
          cases hv : v.contains p.normalize with
          | true =>
              rw [Visited.insert_of_contains hv] at hpaths hadded
              refine ⟨added, ?_, fun k => ?_⟩
              · rwa [Visited.entered_cons, Visited.record_enter, Visited.insert_of_contains hv]
              · rw [hadded k]
                grind
          | false =>
              rw [Visited.paths_insert_of_not_contains hv, List.append_assoc] at hpaths
              refine ⟨p.normalize :: added, hpaths, fun k => ?_⟩
              rw [List.mem_cons, hadded k]
              constructor
              · rintro (rfl | ⟨hk, q, hq, rfl⟩)
                · exact ⟨hv, p, List.mem_cons_self, rfl⟩
                · exact ⟨(contains_insert_normalize.1 hk).1, q, List.mem_cons_of_mem _ hq, rfl⟩
              · rintro ⟨hk, q, hq, rfl⟩
                by_cases heq : p.normalize = q.normalize
                · exact .inl heq.symm
                · right
                  rcases List.mem_cons.1 hq with hqp | hq
                  · cases hqp
                    exact absurd rfl heq
                  · exact ⟨contains_insert_normalize.2 ⟨hk, heq⟩, q, hq, rfl⟩

/-- A trace without a limit adds to the visited paths the files that are reached, and no others.
Each of them is either closed once or impossible to open once, and no file that was visited before
is closed or impossible to open. -/
theorem visited_iff_reached {σ : Type} {c : Context σ} {s : σ} {fuel : Nat} {root : Path}
    {v : Visited} {o : Outcome} (hs : c.sink.NeverRefuses s) (hlim : c.maxDepth = none)
    (h : outcome c fuel root v s = some o) :
    (∃ added, o.visited.paths = v.paths ++ added
        ∧ ∀ k, k ∈ added ↔ Reached c.files root v k)
      ∧ (∀ k, Reached c.files root v k →
        o.events.countP (Event.closes k) = 1 ∧ o.events.countP (Event.fails k .opening) = 0
          ∨ o.events.countP (Event.closes k) = 0 ∧ o.events.countP (Event.fails k .opening) = 1)
      ∧ ∀ k, v.contains k = true →
        o.events.countP (Event.closes k) = 0 ∧ o.events.countP (Event.fails k .opening) = 0 := by
  obtain ⟨n, l, b, ht, hstack, -, rfl⟩ := (outcome_eq_some_iff_of_neverRefuses hs).1 h
  rw [hlim] at ht
  have hlinked := ht.linked
  have htracks := ht.tracks
  have haccount : Accounted c.files v (events l) [] := hstack ▸ htracks.accounted
  refine ⟨?_, ?_, ?_⟩
  · obtain ⟨added, hpaths, hadded⟩ := paths_entered v (events l)
    refine ⟨added, htracks.visited ▸ hpaths, fun k => ?_⟩
    rw [hadded k, ← exists_openedAs?_iff, hlinked.exists_openedAs?_iff_reached haccount]
  · intro k hk
    have hopen := hlinked.openedAs?_of_reached haccount hk
    obtain ⟨-, -, hkey⟩ := openedAs?_eq_some hopen
    have htold : told k (events l) = script c.files (spelling root k) := by
      rw [haccount.told_eq k, hopen, Option.elim_some]
    have hends := script_ends c.files (spelling root k)
    rwa [hkey, ← htold, countP_told (Event.tells_of_closes k),
      countP_told (Event.tells_of_fails k .opening)] at hends
  · intro k hv
    have htold : told k (events l) = [] := by
      rw [haccount.told_eq k, openedAs?, if_pos hv, Option.elim_none]
    rw [← countP_told (Event.tells_of_closes k), ← countP_told (Event.tells_of_fails k .opening),
      htold]
    exact ⟨rfl, rfl⟩

/-- The missing file is reached too. -/
theorem visited_iff_reached_mutual :
    ∃ o, outcome ⟨mutualFiles, Journal.sink, none⟩ 20 (.ofText "./m".toList) .empty (.empty none)
        = some o
      ∧ o.visited.paths = [.ofText "m".toList, .ofText "h".toList, .ofText "x".toList]
      ∧ ∀ k, k ∈ o.visited.paths ↔ Reached mutualFiles (.ofText "./m".toList) .empty k := by
  have hmap : (outcome ⟨mutualFiles, Journal.sink, none⟩ 20 (.ofText "./m".toList) .empty
      (.empty none)).map (·.visited.paths)
      = some [.ofText "m".toList, .ofText "h".toList, .ofText "x".toList] := by decide +kernel
  obtain ⟨o, ho, hpaths⟩ := Option.map_eq_some_iff.1 hmap
  obtain ⟨⟨added, hadded, hreached⟩, -, -⟩ :=
    visited_iff_reached (Journal.neverRefuses_of_unlimited rfl) rfl ho
  refine ⟨o, ho, hpaths, fun k => ?_⟩
  rw [hadded, ← hreached k]
  rfl

end Walk

end IncludeTrace
