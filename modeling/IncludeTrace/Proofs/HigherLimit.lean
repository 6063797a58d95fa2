import IncludeTrace.Proofs.DepthLimit

/-!
# Higher limits

With a higher limit a trace goes deeper, and it can still miss a file.  The walk
looks into a file only once, where it meets it first.  If it goes down a long way
first and meets a file there, at the limit, it does not follow the directives of
this file, also not when a shorter way leads to it later.  With a lower limit the
long way is cut off before, the file is met by the shorter way, and its targets are
entered.

This is the only way in which a file can be lost.  What the first trace enters is
the root or the target of a directive in a file above the limit
(`TraceTo.enter_induction`).  The second trace enters the targets of the same file,
unless it did not visit the file or visited it at the limit
(`TraceTo.enter_or_limit`).  So behind every file that is lost there is one that the
second trace met at its limit and the first one met above.
-/

namespace IncludeTrace

namespace Walk

open Signal (events)

section Entered

variable {files : FileSystem} {limit : Option Nat} {n : Nat} {p q root k : Path} {depth : Nat}
  {v : Visited} {b b' : Position} {l : List Signal} {es : List Event} {P : Path → Prop}
  {d : Located}

/-! ## Which paths are entered -/

theorem Enters.eq_of_enter_mem (he : Enters files p depth b l b') (hq : .enter q ∈ events l) :
    q = p := by
  obtain ⟨quiet, hl, hquiet⟩ := he.events_eq
  rw [hl] at hq
  rcases List.mem_cons.1 hq with heq | hmem
  · exact Event.enter.inj heq
  · cases hquiet _ hmem

theorem Enters.path_of_mem_stack (he : Enters files p depth b l b') :
    ∀ f ∈ b'.stack, f.path = p ∨ f ∈ b.stack := by
  intro f hf
  cases he with
  | again hv => exact .inr hf
  | missing hv hfile => exact .inr hf
  | opened hv hfile =>
      rcases List.mem_cons.1 hf with rfl | hf
      · exact .inl rfl
      · exact .inr hf

/-- What holds of the files on the stack, and of the target a step enters, holds of all paths the
step enters and of the files on the stack after it. -/
theorem Move.enter_induction (hm : Move files limit b l b') (hstack : ∀ f ∈ b.stack, P f.path)
    (htarget : ∀ p d ds fault depth rest, b.stack = ⟨p, d :: ds, fault, depth⟩ :: rest →
      d.directive.isFollowed = true → limit.any (· ≤ depth) = false →
      P (p.resolve d.directive.target)) :
    (∀ p, .enter p ∈ events l → P p) ∧ ∀ f ∈ b'.stack, P f.path := by
  cases hm with
  | @leave _ _ p fault _ rest =>
      refine ⟨fun q hq => ?_, fun f hf => hstack f (List.mem_cons_of_mem _ hf)⟩
      cases fault <;> simp [OpenFile.closing] at hq
  | skip hd => exact ⟨by simp, by simpa using hstack⟩
  | limited hd hl => exact ⟨by simp, by simpa using hstack⟩
  | @follow _ _ p d ds fault depth rest l _ hd hl he =>
      have hp : P (p.resolve d.directive.target) := htarget p d ds fault depth rest rfl hd hl
      have hopen : ∀ f ∈ (⟨p, ds, fault, depth⟩ : OpenFile) :: rest, P f.path := by
        simpa using hstack
      refine ⟨fun q hq => ?_, fun f hf => ?_⟩
      · have hmem : .enter q ∈ events l := by simpa using hq
        exact he.eq_of_enter_mem hmem ▸ hp
      · rcases he.path_of_mem_stack f hf with hpath | hf
        · exact hpath ▸ hp
        · exact hopen f hf

theorem Moves.enter_induction (hms : Moves files limit n b l b') (hend : b'.stack = [])
    (ht : Tracks files v es b) (hn : Nested es b.stack) (hstack : ∀ f ∈ b.stack, P f.path)
    (hstep : ∀ p d, P p → openedAs? v p.normalize (es ++ events l) = some p →
      limit.any (· ≤ level (es ++ events l) p) = false → d ∈ files.directivesAt p →
      d.directive.isFollowed = true → P (p.resolve d.directive.target)) :
    ∀ p, .enter p ∈ events l → P p := by
  induction hms generalizing es with
  | refl => simp
  | @head n b b₁ b₂ l l' hm hms ih =>
      have hlevels := Moves.level_eq (.head hm hms) hend ht hn
      have htarget : ∀ p d ds fault depth rest, b.stack = ⟨p, d :: ds, fault, depth⟩ :: rest →
          d.directive.isFollowed = true → limit.any (· ≤ depth) = false →
          P (p.resolve d.directive.target) := by
        intro p d ds fault depth rest htop hd hl
        obtain ⟨hopen, hds⟩ := (htop ▸ ht.accounted).top
        have hlevel : level (es ++ events (l ++ l')) p = depth :=
          (hlevels (p, depth) (by rw [htop]; exact List.mem_cons_self)).2
        refine hstep p d (hstack ⟨p, d :: ds, fault, depth⟩ ?_) ?_ ?_ (hds d List.mem_cons_self) hd
        · rw [htop]
          exact List.mem_cons_self
        · rw [openedAs?_append, hopen, Option.some_or]
        · rw [hlevel]
          exact hl
      obtain ⟨hfirst, hstack₁⟩ := hm.enter_induction hstack htarget
      rw [Signal.events_append, ← List.append_assoc] at hstep
      intro p hp
      rw [Signal.events_append] at hp
      rcases List.mem_append.1 hp with hp | hp
      · exact hfirst p hp
      · exact ih hend (hm.tracks ht) (hm.nested ht hn) hstack₁ hstep p hp

/-- Induction over the paths that a trace enters: the root, and the targets of the files that are
opened above the limit. -/
theorem TraceTo.enter_induction (ht : TraceTo files limit root v n l b) (hend : b.stack = [])
    (hroot : P root)
    (hstep : ∀ p d, P p → openedAs? v p.normalize (events l) = some p →
      limit.any (· ≤ level (events l) p) = false → d ∈ files.directivesAt p →
      d.directive.isFollowed = true → P (p.resolve d.directive.target)) :
    ∀ p, .enter p ∈ events l → P p := by
  cases ht with
  | @intro b₁ _ l₁ l₂ he hms =>
      have hstack : ∀ f ∈ b₁.stack, P f.path := by
        intro f hf
        rcases he.path_of_mem_stack f hf with rfl | hf
        · exact hroot
        · cases hf
      rw [Signal.events_note, Signal.events_append] at hstep ⊢
      intro p hp
      rcases List.mem_append.1 hp with hp | hp
      · exact he.eq_of_enter_mem hp ▸ hroot
      · exact hms.enter_induction hend (he.tracks (.init files v))
          (he.nested (.init files v) .nil rfl) hstack hstep p hp

theorem TraceTo.events_eq (ht : TraceTo files limit root v n l b) :
    ∃ es, events l = .enter root :: es := by
  cases ht with
  | intro he hms =>
      obtain ⟨quiet, hl, -⟩ := he.events_eq
      rw [Signal.events_note, Signal.events_append, hl]
      exact ⟨_, rfl⟩

/-- Two traces of a root open a file by the same path, whatever their limits. -/
theorem TraceTo.spelling_eq (ht : TraceTo files limit root v n l b) (hend : b.stack = [])
    (ho : openedAs? v k (events l) = some p) : spelling root k = p := by
  refine spelling_eq_of_openedAs? ht.events_eq ?_ ho
  exact ht.enter_induction hend (.inl rfl) fun p d _ _ _ _ _ => .inr (Path.normalize_resolve p _)

/-! ## Which targets are entered -/

/-- The target of a directive that is followed is entered unless the file is at the limit. -/
theorem Move.enter_or_limit (hm : Move files limit b l b') (hmem : .found p d ∈ events l)
    (hd : d.directive.isFollowed = true) :
    .enter (p.resolve d.directive.target) ∈ events l ∨
      ∃ k, (p, k) ∈ b.stack.map OpenFile.place ∧ limit.any (· ≤ k) = true := by
  cases hm with
  | @leave _ _ _ fault _ _ => cases fault <;> simp [OpenFile.closing] at hmem
  | skip hd' =>
      obtain ⟨rfl, rfl⟩ := Event.found.inj (List.mem_singleton.1 hmem)
      rw [hd] at hd'
      cases hd'
  | @limited _ _ _ _ _ _ depth _ hd' hl =>
      obtain ⟨rfl, rfl⟩ := Event.found.inj (List.mem_singleton.1 hmem)
      exact .inr ⟨depth, List.mem_cons_self, hl⟩
  | follow hd' hl he =>
      obtain ⟨quiet, hev, hquiet⟩ := he.events_eq
      rw [Signal.events_event, hev] at hmem ⊢
      rcases List.mem_cons.1 hmem with heq | hmem
      · obtain ⟨rfl, rfl⟩ := Event.found.inj heq
        simp
      · rcases List.mem_cons.1 hmem with heq | hmem
        · cases heq
        · exact absurd (hquiet _ hmem) (by simp [Event.leads, hd])

theorem Moves.enter_or_limit (hms : Moves files limit n b l b') (hend : b'.stack = [])
    (ht : Tracks files v es b) (hn : Nested es b.stack) (hmem : .found p d ∈ events l)
    (hd : d.directive.isFollowed = true) :
    .enter (p.resolve d.directive.target) ∈ events l ∨
      limit.any (· ≤ level (es ++ events l) p) = true := by
  induction hms generalizing es with
  | refl => cases hmem
  | @head n b b₁ b₂ l l' hm hms ih =>
      have hlevels := Moves.level_eq (.head hm hms) hend ht hn
      rw [Signal.events_append] at hmem hlevels ⊢
      rcases List.mem_append.1 hmem with hmem | hmem
      · rcases hm.enter_or_limit hmem hd with henter | ⟨k, hk, hl⟩
        · exact .inl (List.mem_append_left _ henter)
        · right
          rw [(hlevels (p, k) hk).2]
          exact hl
      · rcases ih hend (hm.tracks ht) (hm.nested ht hn) hmem with henter | hl
        · exact .inl (List.mem_append_right _ henter)
        · rw [List.append_assoc] at hl
          exact .inr hl

theorem TraceTo.enter_or_limit (ht : TraceTo files limit root v n l b) (hend : b.stack = [])
    (hmem : .found p d ∈ events l) (hd : d.directive.isFollowed = true) :
    .enter (p.resolve d.directive.target) ∈ events l ∨
      limit.any (· ≤ level (events l) p) = true := by
  cases ht with
  | @intro b₁ _ l₁ l₂ he hms =>
      rw [Signal.events_note, Signal.events_append] at hmem ⊢
      rcases List.mem_append.1 hmem with hmem | hmem
      · have hnot : d.directive.isFollowed = false := he.isQuoted_eq_false _ hmem
        rw [hd] at hnot
        cases hnot
      · rcases hms.enter_or_limit hend (he.tracks (.init files v))
          (he.nested (.init files v) .nil rfl) hmem hd with henter | hl
        · exact .inl (List.mem_append_right _ henter)
        · exact .inr hl

/-- The whole script of a file that is opened is told. -/
theorem TraceTo.mem_of_mem_script (ht : TraceTo files limit root v n l b) (hend : b.stack = [])
    (ho : openedAs? v k (events l) = some p) {e : Event} (he : e ∈ script files p) :
    e ∈ events l := by
  have haccount : Accounted files v (events l) [] := hend ▸ ht.tracks.accounted
  have htold : told k (events l) = script files p := by
    rw [haccount.told_eq k, ho, Option.elim_some]
  exact (List.mem_filter.1 (htold ▸ he)).1

/-- No file is closed at a level beyond the limit. -/
theorem TraceTo.level_le {limit : Nat} (ht : TraceTo files (some limit) root v n l b)
    (hend : b.stack = []) (hp : .close p ∈ events l) : level (events l) p ≤ limit :=
  calc level (events l) p ≤ deepestOf (events l) (closed (events l)) :=
        le_deepestOf (mem_closed.2 hp)
    _ = b.tally.deepest := (ht.deepest_eq hend).symm
    _ ≤ limit := ht.deepest_le

/-- A file that is opened has the targets of its directives entered, or it is at the limit. -/
theorem TraceTo.enter_or_at_limit (ht : TraceTo files limit root v n l b) (hend : b.stack = [])
    (ho : openedAs? v k (events l) = some p) (hmem : d ∈ files.directivesAt p)
    (hd : d.directive.isFollowed = true) :
    .enter (p.resolve d.directive.target) ∈ events l ∨ limit = some (level (events l) p) := by
  have hfound := ht.mem_of_mem_script hend ho (found_mem_script.2 hmem)
  have hclose := ht.mem_of_mem_script hend ho (close_mem_script hmem)
  rcases ht.enter_or_limit hend hfound hd with henter | hl
  · exact .inl henter
  · right
    cases limit with
    | none => cases hl
    | some m =>
        have hge : m ≤ level (events l) p := by simpa using hl
        rw [Nat.le_antisymm hge (ht.level_le hend hclose)]

end Entered

/-! ## Files that are lost -/

/-- The file `k` is behind a directive that two traces find.  The first one enters its target, from
a file above the limit `low`.  The second one does not, since there the file is below that level and
just at the limit; and it visits no file on the way from the target to `k`. -/
def Behind (files : FileSystem) (low : Nat) (limit : Option Nat) (o₁ o₂ : Outcome) (k : Path) :
    Prop :=
  ∃ f d, .found f d ∈ o₁.events ∧ level o₁.events f < low
    ∧ .found f d ∈ o₂.events ∧ low ≤ level o₂.events f ∧ limit = some (level o₂.events f)
    ∧ d.directive.isFollowed = true
    ∧ Reached files (f.resolve d.directive.target) o₂.visited k

section Lost

variable {files : FileSystem} {limit : Option Nat} {low : Nat} {root p q k : Path} {v : Visited}
  {n₁ n₂ : Nat} {l₁ l₂ : List Signal} {b₁ b₂ : Position} {o₁ o₂ : Outcome} {d : Located}

theorem Reached.not_contains (h : Reached files root v k) : v.contains k = false := by
  cases h with
  | root hv => exact hv
  | step _ _ _ hv => exact hv

theorem spelling_of_normal (h : root.normalize = root) (k : Path) : spelling root k = k := by
  unfold spelling
  split
  · rename_i hk
    rw [hk, h]
  · rfl

/-- What is included by a file that is lost is lost, unless it is visited by another way. -/
theorem Behind.step (h : Behind files low limit o₁ o₂ p) (hmem : d ∈ files.directivesAt p)
    (hd : d.directive.isFollowed = true)
    (hv : o₂.visited.contains (p.resolve d.directive.target) = false) :
    Behind files low limit o₁ o₂ (p.resolve d.directive.target) := by
  obtain ⟨f, d', hfound₁, hlow, hfound₂, hhigh, hlimit, hd', hreached⟩ := h
  refine ⟨f, d', hfound₁, hlow, hfound₂, hhigh, hlimit, hd', ?_⟩
  have hspelling := spelling_of_normal (Path.normalize_resolve f d'.directive.target) p
  have hstep := @Reached.step files _ _ p d hreached
  rw [hspelling] at hstep
  exact hstep hmem hd hv

/-- Every path that the first trace enters is visited by the second or lost. -/
theorem TraceTo.visited_or_behind (h₁ : TraceTo files (some low) root v n₁ l₁ b₁)
    (hend₁ : b₁.stack = []) (h₂ : TraceTo files limit root v n₂ l₂ b₂) (hend₂ : b₂.stack = [])
    (ho₁ : o₁.events = events l₁) (ho₂ : o₂.events = events l₂) (hv₂ : o₂.visited = b₂.visited)
    (hle : ∀ high, limit = some high → low ≤ high) :
    ∀ p, .enter p ∈ events l₁ → o₂.visited.contains p.normalize = true ∨
      Behind files low limit o₁ o₂ p.normalize := by
  have hvisited : ∀ q, .enter q ∈ events l₂ → o₂.visited.contains q.normalize = true := by
    intro q hq
    rw [hv₂, h₂.visited_eq, Visited.contains_entered]
    exact .inr ⟨q, hq, rfl⟩
  have hroot : o₂.visited.contains root.normalize = true := by
    obtain ⟨es, hes⟩ := h₂.events_eq
    exact hvisited root (hes ▸ List.mem_cons_self)
  refine h₁.enter_induction hend₁ (.inl hroot) ?_
  intro p d hp hopen₁ habove hmem hd
  rw [Path.normalize_resolve]
  cases hv : o₂.visited.contains (p.resolve d.directive.target) with
  | true => exact .inl rfl
  | false =>
      right
      have hspelling := h₁.spelling_eq hend₁ hopen₁
      rcases hp with hp | hlost
      · -- The second trace opens the file too, by the same path, and does not enter the target.
        rw [hv₂, h₂.visited_eq] at hp
        rcases openedAs?_of_contains hp with hbefore | ⟨q, hopen₂⟩
        · rw [(openedAs?_eq_some hopen₁).1] at hbefore
          cases hbefore
        · obtain rfl : p = q := hspelling.symm.trans (h₂.spelling_eq hend₂ hopen₂)
          have hfound := found_mem_script.2 hmem
          rcases h₂.enter_or_at_limit hend₂ hopen₂ hmem hd with henter | hlimit
          · have hcontains := hvisited _ henter
            rw [Path.normalize_resolve, hv] at hcontains
            cases hcontains
          · rw [← ho₂] at hlimit
            have hreached := @Reached.root files (p.resolve d.directive.target) o₂.visited
            rw [Path.normalize_resolve] at hreached
            refine ⟨p, d, ?_, ?_, ?_, hle _ hlimit, hlimit, hd, hreached hv⟩
            · rw [ho₁]
              exact h₁.mem_of_mem_script hend₁ hopen₁ hfound
            · rw [ho₁]
              simpa using habove
            · rw [ho₂]
              exact h₂.mem_of_mem_script hend₂ hopen₂ hfound
      · -- The file itself is lost, so it is not the root, which both traces visit.
        have hne : p.normalize ≠ root.normalize := by
          obtain ⟨_, _, _, _, _, _, _, _, hreached⟩ := hlost
          intro heq
          have hnot := hreached.not_contains
          rw [heq, hroot] at hnot
          cases hnot
        have hnormal : p.normalize = p := by
          rwa [spelling, if_neg hne] at hspelling
        rw [hnormal] at hlost
        exact hlost.step hmem hd hv

/-- Nothing is lost by a trace that holds no target back. -/
theorem TraceTo.not_behind (h₂ : TraceTo files limit root v n₂ l₂ b₂) (hend₂ : b₂.stack = [])
    (ho₂ : o₂.events = events l₂) (hzero : b₂.tally.depthLimited = 0)
    (hfew : ∀ high, limit = some high → o₂.events.countP (quotedAt o₂.events high) < 2 ^ 64) :
    ¬ Behind files low limit o₁ o₂ k := by
  rintro ⟨f, d, -, -, hfound, -, rfl, hd, -⟩
  have hquoted : quotedAt o₂.events (level o₂.events f) (.found f d) = true := by
    have hq : Event.isQuoted (.found f d) = true := hd
    rw [quotedAt, hq]
    exact beq_self_eq_true _
  have hpos := List.countP_pos_iff.2 ⟨_, hfound, hquoted⟩
  have hcount := (h₂.depthLimited_eq hend₂).1
  rw [← ho₂, hzero] at hcount
  have hnone := congrArg UInt64.toNat hcount
  rw [UInt64.toNat_ofNat_of_lt' (hfew _ rfl)] at hnone
  exact absurd hnone.symm (Nat.ne_of_gt hpos)

/-- A path that events enter is a key after them, unless it was visited before. -/
theorem mem_paths_entered {es : List Event} (hv : v.contains p.normalize = false)
    (h : (v.entered es).contains p.normalize = true) : p.normalize ∈ (v.entered es).paths := by
  obtain ⟨added, hpaths, hadded⟩ := paths_entered v es
  rw [hpaths]
  refine List.mem_append_right _ ((hadded _).2 ⟨hv, ?_⟩)
  rcases openedAs?_of_contains h with hbefore | ⟨q, hq⟩
  · rw [hv] at hbefore
    cases hbefore
  · exact ⟨q, (openedAs?_eq_some hq).2⟩

end Lost

/-- What a higher limit, or none, does to the visited paths.  Every key of the trace with the lower
limit is one of the trace with the higher limit, or the trace with the higher limit loses it: it
meets a file at its limit, and does not follow the directives of this file, which the other trace
meets further up.  No key is lost if the trace with the higher limit holds no target back; this
takes for granted that the word with which such targets are counted does not overflow. -/
theorem visited_of_higher_limit {σ τ : Type} {files : FileSystem} {k₁ : Sink σ} {s₁ : σ}
    {k₂ : Sink τ} {s₂ : τ} {low : Nat} {limit : Option Nat} {fuel₁ fuel₂ : Nat} {root : Path}
    {v : Visited} {o₁ o₂ : Outcome} {t₁ t₂ : Tally}
    (hle : ∀ high, limit = some high → low ≤ high)
    (h₁ : outcome ⟨files, k₁, some low⟩ fuel₁ root v s₁ = some o₁) (ht₁ : o₁.result = .ok t₁)
    (h₂ : outcome ⟨files, k₂, limit⟩ fuel₂ root v s₂ = some o₂) (ht₂ : o₂.result = .ok t₂) :
    (∀ k ∈ o₁.visited.paths, k ∈ o₂.visited.paths ∨ Behind files low limit o₁ o₂ k)
      ∧ (t₂.depthLimited = 0 →
        (∀ high, limit = some high → o₂.events.countP (quotedAt o₂.events high) < 2 ^ 64) →
        ∀ k ∈ o₁.visited.paths, k ∈ o₂.visited.paths) := by
  obtain ⟨n₁, l₁, b₁, htrace₁, hend₁, hevents₁, hvisited₁, -⟩ := exists_traceTo_of_ok h₁ ht₁
  obtain ⟨n₂, l₂, b₂, htrace₂, hend₂, hevents₂, hvisited₂, rfl⟩ := exists_traceTo_of_ok h₂ ht₂
  have hkeys : ∀ k ∈ o₁.visited.paths, k ∈ o₂.visited.paths ∨ Behind files low limit o₁ o₂ k := by
    intro k hk
    obtain ⟨added, hpaths, hadded⟩ := paths_entered v (events l₁)
    rw [hvisited₁, htrace₁.visited_eq, hpaths] at hk
    rcases List.mem_append.1 hk with hk | hk
    · obtain ⟨added₂, hpaths₂, -⟩ := paths_entered v (events l₂)
      rw [hvisited₂, htrace₂.visited_eq, hpaths₂]
      exact .inl (List.mem_append_left _ hk)
    · obtain ⟨hnew, p, hp, rfl⟩ := (hadded k).1 hk
      refine (htrace₁.visited_or_behind hend₁ htrace₂ hend₂ hevents₁ hevents₂ hvisited₂ hle
        p hp).imp_left fun hcontains => ?_
      rw [hvisited₂, htrace₂.visited_eq] at hcontains ⊢
      exact mem_paths_entered hnew hcontains
  refine ⟨hkeys, fun hzero hfew k hk => ?_⟩
  exact (hkeys k hk).resolve_right (htrace₂.not_behind hend₂ hevents₂ hzero hfew)

/-- A file that is included at the top and by the last file of a chain. -/
def sharedFiles : FileSystem := fun p =>
  let text := [("main.c", "#include \"a.h\"\n#include \"shared.h\"\n"),
    ("a.h", "#include \"b.h\"\n"), ("b.h", "#include \"shared.h\"\n"),
    ("shared.h", "#include \"leaf.h\"\n"), ("leaf.h", "")].find? fun file =>
      p = .ofText file.1.toList
  text.elim (.error .notFound) fun file => .ok [.bytes (Utf8.encode file.2.toList)]

theorem outcome_shared_two :
    (outcome ⟨sharedFiles, Journal.sink, some 2⟩ 20 (.ofText "main.c".toList) .empty
      (.empty none)).map (fun o => (o.result.isOk, o.visited.paths)) =
      some (true, ["main.c", "a.h", "b.h", "shared.h", "leaf.h"].map (.ofText ·.toList)) := by
  decide +kernel

theorem outcome_shared_three :
    (outcome ⟨sharedFiles, Journal.sink, some 3⟩ 20 (.ofText "main.c".toList) .empty
      (.empty none)).map (fun o => (o.result.isOk, o.visited.paths)) =
      some (true, ["main.c", "a.h", "b.h", "shared.h"].map (.ofText ·.toList)) := by
  decide +kernel

/-- With a limit of two the chain is cut off before the shared file, which is then met at the top,
and its target is entered.  With a limit of three the shared file is met at the end of the chain,
and its target is held back. -/
theorem visited_lost_of_higher_limit :
    ∃ o₁ o₂, outcome ⟨sharedFiles, Journal.sink, some 2⟩ 20 (.ofText "main.c".toList) .empty
        (.empty none) = some o₁
      ∧ outcome ⟨sharedFiles, Journal.sink, some 3⟩ 20 (.ofText "main.c".toList) .empty
        (.empty none) = some o₂
      ∧ o₁.result.isOk = true ∧ o₂.result.isOk = true
      ∧ .ofText "leaf.h".toList ∈ o₁.visited.paths
      ∧ .ofText "leaf.h".toList ∉ o₂.visited.paths := by
  obtain ⟨o₁, ho₁, heq₁⟩ := Option.map_eq_some_iff.1 outcome_shared_two
  obtain ⟨o₂, ho₂, heq₂⟩ := Option.map_eq_some_iff.1 outcome_shared_three
  obtain ⟨hok₁, hpaths₁⟩ := Prod.mk.inj heq₁
  obtain ⟨hok₂, hpaths₂⟩ := Prod.mk.inj heq₂
  refine ⟨o₁, o₂, ho₁, ho₂, hok₁, hok₂, ?_, ?_⟩
  · rw [hpaths₁]
    decide +kernel
  · rw [hpaths₂]
    decide +kernel

/-- The file that is lost is behind the shared one.  With a limit of four no target is held back,
and nothing is lost. -/
theorem visited_of_higher_limit_shared :
    ∃ o₁ o₂ o₃, outcome ⟨sharedFiles, Journal.sink, some 2⟩ 20 (.ofText "main.c".toList) .empty
        (.empty none) = some o₁
      ∧ outcome ⟨sharedFiles, Journal.sink, some 3⟩ 20 (.ofText "main.c".toList) .empty
        (.empty none) = some o₂
      ∧ Behind sharedFiles 2 (some 3) o₁ o₂ (.ofText "leaf.h".toList)
      ∧ outcome ⟨sharedFiles, Journal.sink, some 4⟩ 20 (.ofText "main.c".toList) .empty
        (.empty none) = some o₃
      ∧ ∀ k ∈ o₁.visited.paths, k ∈ o₃.visited.paths := by
  have hfour : (outcome ⟨sharedFiles, Journal.sink, some 4⟩ 20 (.ofText "main.c".toList) .empty
      (.empty none)).map (fun o => (o.result.toOption.map (·.depthLimited),
        o.events.countP (quotedAt o.events 4))) = some (some 0, 0) := by decide +kernel
  obtain ⟨o₁, ho₁, heq₁⟩ := Option.map_eq_some_iff.1 outcome_shared_two
  obtain ⟨o₂, ho₂, heq₂⟩ := Option.map_eq_some_iff.1 outcome_shared_three
  obtain ⟨o₃, ho₃, heq₃⟩ := Option.map_eq_some_iff.1 hfour
  obtain ⟨hok₁, hpaths₁⟩ := Prod.mk.inj heq₁
  obtain ⟨hok₂, hpaths₂⟩ := Prod.mk.inj heq₂
  obtain ⟨htotal, hnone⟩ := Prod.mk.inj heq₃
  obtain ⟨t₁, ht₁⟩ := Outcome.exists_ok hok₁
  obtain ⟨t₂, ht₂⟩ := Outcome.exists_ok hok₂
  have hleaf₁ : .ofText "leaf.h".toList ∈ o₁.visited.paths := by
    rw [hpaths₁]
    decide +kernel
  have hleaf₂ : .ofText "leaf.h".toList ∉ o₂.visited.paths := by
    rw [hpaths₂]
    decide +kernel
  have hlost := (visited_of_higher_limit (by simp) ho₁ ht₁ ho₂ ht₂).1 _ hleaf₁
  cases ht₃ : o₃.result with
  | error cause => rw [ht₃] at htotal; cases htotal
  | ok t₃ =>
      have hzero : t₃.depthLimited = 0 := by simpa [ht₃, Except.toOption] using htotal
      have hkept := (visited_of_higher_limit (by simp) ho₁ ht₁ ho₃ ht₃).2 hzero
        (by rintro _ ⟨⟩; rw [hnone]; decide)
      exact ⟨o₁, o₂, o₃, ho₁, ho₂, hlost.resolve_left hleaf₂, ho₃, hkept⟩

end Walk

end IncludeTrace
