import IncludeTrace.Proofs.Account
import IncludeTrace.Proofs.Lines
import IncludeTrace.Proofs.Recursion

/-!
# Failures are local

A file that fails is compared with a file in its place that does not.  In place of
a file that cannot be opened there is an empty one, and in place of a file that
cannot be read to its end there is one that ends with its last whole line
(`FailsAs`).  All other files are the same.

The two traces then differ in nothing but the end of that file: where the one has
its `close` event, the other has the failure, before the `close` event if the file
was opened.  Both traces are taken as recursions, and the recursions go the same
way (`Differs`).  A file is closed at most once, so there is one such place, and
there is none if the file is not opened.
-/

namespace IncludeTrace

namespace Walk

open Signal (events)

/-- What opening the path `p` gives when it fails and when it does not, and the events with which
the failing file ends. -/
inductive FailsAs (p : Path) :
    Except Cause (List Delivery) → Except Cause (List Delivery) → List Event → Prop where
  /-- The file cannot be opened, or it is empty. -/
  | opening {cause : Cause} {ds : List Delivery} : Brings ds [] none →
      FailsAs p (.error cause) (.ok ds) [.failed p .opening cause]
  /-- The file fails behind some bytes, or it has their whole lines. -/
  | reading {cause : Cause} {b : Bytes} {ds ds' : List Delivery} : Brings ds b (some cause) →
      Brings ds' (wholeLines b) none →
      FailsAs p (.ok ds) (.ok ds') [.failed p .reading cause, .close p]

/-- An event, or other events if it closes the path `p`. -/
def replaceClose (p : Path) (ending : List Event) (e : Event) : List Event :=
  if e = .close p then ending else [e]

/-- How far two traces agree, the first of which meets the failing file. -/
structure Differs (p : Path) (ending : List Event) (g₁ g₂ : Progress) : Prop where
  events : g₁.events = g₂.events.flatMap (replaceClose p ending)
  visited : g₁.visited = g₂.visited
  quoted : g₁.tally.quoted = g₂.tally.quoted
  angle : g₁.tally.angle = g₂.tally.angle
  duplicates : g₁.tally.duplicates = g₂.tally.duplicates
  depthLimited : g₁.tally.depthLimited = g₂.tally.depthLimited
  errors : g₁.tally.errors = g₂.tally.errors + .ofNat (g₂.events.count (.close p))

section Differs

variable {p q : Path} {ending : List Event} {g₁ g₂ g₁' g₂' : Progress} {depth n : Nat}
  {files₁ files₂ : FileSystem} {limit : Option Nat} {d : Located} {ds : List Located}

theorem Differs.init (p : Path) (ending : List Event) (v : Visited) :
    Differs p ending (.init v) (.init v) :=
  ⟨rfl, rfl, rfl, rfl, rfl, rfl, rfl⟩

/-- Every event but the closing of `p` happens in both. -/
theorem Differs.emit (h : Differs p ending g₁ g₂) {e : Event} (he : e ≠ .close p) :
    Differs p ending (g₁.emit e) (g₂.emit e) := by
  have hevents : (g₁.emit e).events = (g₂.emit e).events.flatMap (replaceClose p ending) := by
    simp [Progress.emit, h.events, replaceClose, he]
  have hcount : (g₂.emit e).events.count (.close p) = g₂.events.count (.close p) := by
    simp [Progress.emit, he]
  have herrors := h.errors
  cases e with
  | enter q => exact ⟨hevents, h.visited, h.quoted, h.angle, h.duplicates, h.depthLimited,
      hcount ▸ herrors⟩
  | close q => exact ⟨hevents, h.visited, h.quoted, h.angle, h.duplicates, h.depthLimited,
      hcount ▸ herrors⟩
  | failed q stage cause =>
      refine ⟨hevents, h.visited, h.quoted, h.angle, h.duplicates, h.depthLimited, ?_⟩
      rw [hcount]
      simp only [Progress.emit, Tally.count, herrors]
      rw [UInt64.add_assoc, UInt64.add_assoc, UInt64.add_comm 1]
  | found q d =>
      cases hq : d.directive.quote with
      | quoted =>
          refine ⟨hevents, h.visited, ?_, ?_, ?_, ?_, ?_⟩ <;>
            simp [Progress.emit, Tally.count, hq, h.quoted, h.angle, h.duplicates, h.depthLimited,
              herrors]
      | angle =>
          refine ⟨hevents, h.visited, ?_, ?_, ?_, ?_, ?_⟩ <;>
            simp [Progress.emit, Tally.count, hq, h.quoted, h.angle, h.duplicates, h.depthLimited,
              herrors]

theorem Differs.mark (h : Differs p ending g₁ g₂) (q : Path) :
    Differs p ending (g₁.mark q) (g₂.mark q) :=
  ⟨h.events, congrArg (Visited.insert · q) h.visited, h.quoted, h.angle, h.duplicates,
    h.depthLimited, h.errors⟩

theorem Differs.opened (h : Differs p ending g₁ g₂) (depth : Nat) :
    Differs p ending (g₁.opened depth) (g₂.opened depth) :=
  ⟨h.events, h.visited, h.quoted, h.angle, h.duplicates, h.depthLimited, h.errors⟩

theorem Differs.duplicate (h : Differs p ending g₁ g₂) :
    Differs p ending g₁.duplicate g₂.duplicate :=
  ⟨h.events, h.visited, h.quoted, h.angle, congrArg (· + 1) h.duplicates, h.depthLimited, h.errors⟩

theorem Differs.limited (h : Differs p ending g₁ g₂) :
    Differs p ending g₁.limited g₂.limited :=
  ⟨h.events, h.visited, h.quoted, h.angle, h.duplicates, congrArg (· + 1) h.depthLimited, h.errors⟩

theorem Differs.close (h : Differs p ending g₁ g₂) (hq : q ≠ p) (fault : Option Cause) :
    Differs p ending (g₁.close q fault) (g₂.close q fault) := by
  have hclose : Event.close q ≠ .close p := fun heq => hq (Event.close.inj heq)
  cases fault with
  | none => exact h.emit hclose
  | some cause => exact (h.emit (by simp)).emit hclose

/-- A file that cannot be opened in the one trace is empty in the other. -/
theorem Differs.missing {cause : Cause} (h : Differs p [.failed p .opening cause] g₁ g₂)
    (depth : Nat) :
    Differs p [.failed p .opening cause] (g₁.emit (.failed p .opening cause))
      ((g₂.opened depth).close p none) := by
  refine ⟨?_, h.visited, h.quoted, h.angle, h.duplicates, h.depthLimited, ?_⟩
  · simp [Progress.emit, Progress.close, Progress.opened, h.events, replaceClose]
  · simp only [Progress.emit, Progress.close, Progress.opened, Tally.count, Tally.opened, h.errors,
      List.count_append, List.count_singleton_self, UInt64.ofNat_add, UInt64.add_assoc]
    rfl

/-- A file that fails to be read in the one trace ends in the other. -/
theorem Differs.failed {cause : Cause}
    (h : Differs p [.failed p .reading cause, .close p] g₁ g₂) :
    Differs p [.failed p .reading cause, .close p] (g₁.close p (some cause)) (g₂.close p none) := by
  refine ⟨?_, h.visited, h.quoted, h.angle, h.duplicates, h.depthLimited, ?_⟩
  · simp [Progress.emit, Progress.close, h.events, replaceClose]
  · simp only [Progress.emit, Progress.close, Tally.count, h.errors,
      List.count_append, List.count_singleton_self, UInt64.ofNat_add, UInt64.add_assoc]
    rfl

/-! ## Two visits -/

/-- Directives are dealt with in the same way. -/
theorem Differs.foldlM_treat {descend₁ descend₂ : Path → Nat → Progress → Option Progress}
    (hdescend : ∀ q depth g₁ g₂ g₁' g₂', Differs p ending g₁ g₂ →
      descend₁ q depth g₁ = some g₁' → descend₂ q depth g₂ = some g₂' → Differs p ending g₁' g₂')
    (h : Differs p ending g₁ g₂)
    (h₁ : ds.foldlM (treat limit descend₁ q depth) g₁ = some g₁')
    (h₂ : ds.foldlM (treat limit descend₂ q depth) g₂ = some g₂') : Differs p ending g₁' g₂' := by
  induction ds generalizing g₁ g₂ with
  | nil =>
      cases h₁
      cases h₂
      exact h
  | cons d ds ih =>
      have hfound : Differs p ending (g₁.emit (.found q d)) (g₂.emit (.found q d)) :=
        h.emit (by simp)
      rw [List.foldlM_cons] at h₁ h₂
      cases hd : d.directive.isFollowed with
      | false =>
          rw [treat_skip hd] at h₁ h₂
          exact ih hfound h₁ h₂
      | true =>
          cases hl : limit.any (· ≤ depth) with
          | true =>
              rw [treat_limited hd hl] at h₁ h₂
              exact ih hfound.limited h₁ h₂
          | false =>
              rw [treat_follow hd hl] at h₁ h₂
              obtain ⟨k₁, hk₁, h₁⟩ := Option.bind_eq_some_iff.1 h₁
              obtain ⟨k₂, hk₂, h₂⟩ := Option.bind_eq_some_iff.1 h₂
              exact ih (hdescend _ _ _ _ _ _ hfound hk₁ hk₂) h₁ h₂

/-- Visits go the same way. -/
theorem Differs.visit (hfiles : ∀ q, q ≠ p → files₁ q = files₂ q)
    (hp : FailsAs p (files₁ p) (files₂ p) ending) (h : Differs p ending g₁ g₂)
    (h₁ : visit files₁ limit n q depth g₁ = some g₁')
    (h₂ : visit files₂ limit n q depth g₂ = some g₂') : Differs p ending g₁' g₂' := by
  induction n generalizing q depth g₁ g₂ g₁' g₂' with
  | zero => simp [Walk.visit] at h₁
  | succ n ih =>
      have henter : Differs p ending (g₁.emit (.enter q)) (g₂.emit (.enter q)) := h.emit (by simp)
      have hfold {ds : List Located} {k₁ k₂ k₁' k₂' : Progress} (hk : Differs p ending k₁ k₂)
          (hk₁ : ds.foldlM (treat limit (Walk.visit files₁ limit n) q depth) k₁ = some k₁')
          (hk₂ : ds.foldlM (treat limit (Walk.visit files₂ limit n) q depth) k₂ = some k₂') :
          Differs p ending k₁' k₂' := by
        refine hk.foldlM_treat ?_ hk₁ hk₂
        intro q depth g₁ g₂ g₁' g₂' h h₁ h₂
        exact ih h h₁ h₂
      cases hv : g₂.visited.contains q.normalize with
      | true =>
          rw [visit_again (h.visited ▸ hv)] at h₁
          rw [visit_again hv] at h₂
          cases h₁
          cases h₂
          exact henter.duplicate
      | false =>
          have hv₁ : g₁.visited.contains q.normalize = false := h.visited ▸ hv
          have hmark := henter.mark q.normalize
          by_cases hq : q = p
          · subst hq
            generalize hf₁ : files₁ q = f₁ at hp
            generalize hf₂ : files₂ q = f₂ at hp
            cases hp with
            | opening hds =>
                rw [visit_missing hv₁ hf₁] at h₁
                rw [visit_opened hv hf₂, Scan.ofDeliveries_of_empty hds] at h₂
                cases h₁
                cases h₂
                exact hmark.missing depth
            | reading hds hds' =>
                obtain ⟨hscan, hfault⟩ := Scan.ofDeliveries_of_fault hds hds'
                rw [visit_opened hv₁ hf₁, hscan] at h₁
                rw [visit_opened hv hf₂, hfault] at h₂
                obtain ⟨k₁, hk₁, rfl⟩ := Option.map_eq_some_iff.1 h₁
                obtain ⟨k₂, hk₂, rfl⟩ := Option.map_eq_some_iff.1 h₂
                exact (hfold (hmark.opened depth) hk₁ hk₂).failed
          · cases hf : files₂ q with
            | error cause =>
                rw [visit_missing hv₁ ((hfiles q hq).trans hf)] at h₁
                rw [visit_missing hv hf] at h₂
                cases h₁
                cases h₂
                exact hmark.emit (by simp)
            | ok deliveries =>
                rw [visit_opened hv₁ ((hfiles q hq).trans hf)] at h₁
                rw [visit_opened hv hf] at h₂
                obtain ⟨k₁, hk₁, rfl⟩ := Option.map_eq_some_iff.1 h₁
                obtain ⟨k₂, hk₂, rfl⟩ := Option.map_eq_some_iff.1 h₂
                exact (hfold (hmark.opened depth) hk₁ hk₂).close hq _

end Differs

/-! ## The place where they differ -/

section Place

variable {p : Path} {ending es : List Event} {f₁ f₂ : Except Cause (List Delivery)}

theorem flatMap_replaceClose_of_notMem (h : .close p ∉ es) :
    es.flatMap (replaceClose p ending) = es := by
  induction es with
  | nil => rfl
  | cons e es ih =>
      obtain ⟨he, hes⟩ := not_or.1 (mt List.mem_cons.2 h)
      rw [List.flatMap_cons, ih hes, replaceClose, if_neg (Ne.symm he)]
      rfl

theorem FailsAs.findSome?_entered? (hp : FailsAs p f₁ f₂ ending) (k : Path) :
    ending.findSome? (Event.entered? k) = none := by
  cases hp with
  | opening => rfl
  | reading => rfl

/-- The same paths are entered. -/
theorem FailsAs.openedAs?_eq (hp : FailsAs p f₁ f₂ ending) (v : Visited) (k : Path)
    (es : List Event) :
    openedAs? v k (es.flatMap (replaceClose p ending)) = openedAs? v k es := by
  have hfind : (es.flatMap (replaceClose p ending)).findSome? (Event.entered? k) =
      es.findSome? (Event.entered? k) := by
    induction es with
    | nil => rfl
    | cons e es ih =>
        rw [List.flatMap_cons, List.findSome?_append, ih, replaceClose]
        split
        · rename_i he
          rw [hp.findSome?_entered? k, he]
          rfl
        · cases he : Event.entered? k e <;> simp [he]
  rw [openedAs?, openedAs?, hfind]

/-- A file that can be opened is closed once if it is opened by the path `p`. -/
theorem TraceTo.count_close {files : FileSystem} {limit : Option Nat} {root : Path} {v : Visited}
    {n : Nat} {l : List Signal} {b : Position} {ds : List Delivery}
    (ht : TraceTo files limit root v n l b) (hb : b.stack = []) (hf : files p = .ok ds) :
    (events l).count (.close p) = if openedAs? v p.normalize (events l) = some p then 1 else 0 := by
  have haccount : Accounted files v (events l) [] := hb ▸ ht.tracks.accounted
  have htold := haccount.told_eq p.normalize
  have hcount : (told p.normalize (events l)).count (.close p) = (events l).count (.close p) := by
    refine countP_told (fun e he => ?_) _
    rw [eq_of_beq he]
    simp [Event.tells]
  rw [← hcount, htold]
  cases ho : openedAs? v p.normalize (events l) with
  | none => rfl
  | some q =>
      by_cases hq : q = p
      · subst hq
        have hfound : ((Scan.ofDeliveries ds).directives.map (Event.found q)).count (.close q) = 0 :=
          List.count_eq_zero.2 (by simp)
        rw [if_pos rfl, Option.elim_some, script, hf]
        cases hfault : (Scan.ofDeliveries ds).fault <;>
          simp [hfound, hfault, OpenFile.closing]
      · rw [if_neg (fun heq => hq (Option.some.inj heq)), Option.elim_some, List.count_eq_zero]
        intro hmem
        exact hq (path_of_mem_script files q _ hmem).symm

end Place

/-- Two traces with file systems that differ in what opening `p` gives: a failure in the first, and
in the second the file without what is lost by the failure.  They visit the same paths and count
the same directives, references to visited files and targets that are too deep.  If `p` is opened,
the second trace closes it once, and the first one is the same except that it has the failure there
and counts one more; if it is not, there is no difference between the events or between the
failures. -/
theorem outcome_of_failsAs {σ τ : Type} {c₁ : Context σ} {c₂ : Context τ} {s₁ : σ} {s₂ : τ}
    {fuel₁ fuel₂ : Nat} {root p : Path} {v : Visited} {o₁ o₂ : Outcome} {ending : List Event}
    (hs₁ : c₁.sink.NeverRefuses s₁) (hs₂ : c₂.sink.NeverRefuses s₂)
    (hlimit : c₁.maxDepth = c₂.maxDepth) (hfiles : ∀ q, q ≠ p → c₁.files q = c₂.files q)
    (hp : FailsAs p (c₁.files p) (c₂.files p) ending)
    (h₁ : outcome c₁ fuel₁ root v s₁ = some o₁) (h₂ : outcome c₂ fuel₂ root v s₂ = some o₂) :
    ∃ t₁ t₂, o₁.result = .ok t₁ ∧ o₂.result = .ok t₂ ∧ o₁.visited = o₂.visited
      ∧ t₁.quoted = t₂.quoted ∧ t₁.angle = t₂.angle ∧ t₁.duplicates = t₂.duplicates
      ∧ t₁.depthLimited = t₂.depthLimited
      ∧ openedAs? v p.normalize o₁.events = openedAs? v p.normalize o₂.events
      ∧ (openedAs? v p.normalize o₂.events = some p →
        ∃ before after, .close p ∉ before ++ after
          ∧ o₂.events = before ++ [.close p] ++ after ∧ o₁.events = before ++ ending ++ after
          ∧ t₁.errors = t₂.errors + 1)
      ∧ (openedAs? v p.normalize o₂.events ≠ some p →
        o₁.events = o₂.events ∧ t₁.errors = t₂.errors) := by
  obtain ⟨n₁, l₁, b₁, ht₁, hb₁, -, rfl⟩ := (outcome_eq_some_iff_of_neverRefuses hs₁).1 h₁
  obtain ⟨n₂, l₂, b₂, ht₂, hb₂, -, rfl⟩ := (outcome_eq_some_iff_of_neverRefuses hs₂).1 h₂
  obtain ⟨k₁, hk₁⟩ := exists_visit_iff.2 ⟨n₁, l₁, b₁, ht₁, hb₁, rfl⟩
  obtain ⟨k₂, hk₂⟩ := exists_visit_iff.2 ⟨n₂, l₂, b₂, ht₂, hb₂, rfl⟩
  rw [hlimit] at hk₁
  have hdiffers := (Differs.init p ending v).visit hfiles hp
    (visit_mono hk₁ (Nat.le_max_left k₁ k₂)) (visit_mono hk₂ (Nat.le_max_right k₁ k₂))
  have hevents : events l₁ = (events l₂).flatMap (replaceClose p ending) := hdiffers.events
  have herrors : b₁.tally.errors =
      b₂.tally.errors + .ofNat ((events l₂).count (.close p)) := hdiffers.errors
  obtain ⟨ds, hds⟩ : ∃ ds, c₂.files p = .ok ds := by
    generalize c₁.files p = f₁ at hp
    generalize c₂.files p = f₂ at hp
    cases hp with
    | @opening _ ds _ => exact ⟨ds, rfl⟩
    | @reading _ _ _ ds' _ _ => exact ⟨ds', rfl⟩
  have hcount := ht₂.count_close hb₂ hds
  refine ⟨b₁.tally, b₂.tally, rfl, rfl, hdiffers.visited, hdiffers.quoted, hdiffers.angle,
    hdiffers.duplicates, hdiffers.depthLimited, ?_, ?_, ?_⟩
  · show openedAs? v p.normalize (events l₁) = openedAs? v p.normalize (events l₂)
    rw [hevents, hp.openedAs?_eq]
  · intro hopen
    rw [if_pos hopen] at hcount
    have hmem : .close p ∈ events l₂ := List.count_pos_iff.1 (by omega)
    obtain ⟨before, after, hl₂, hbefore⟩ := List.eq_append_cons_of_mem hmem
    have hafter : .close p ∉ after := by
      rw [hl₂, List.count_append, List.count_cons_self] at hcount
      exact List.count_eq_zero.1 (by omega)
    refine ⟨before, after, ?_, ?_, ?_, ?_⟩
    · simp [hbefore, hafter]
    · simpa using hl₂
    · show events l₁ = _
      rw [hevents, hl₂, List.flatMap_append, List.flatMap_cons,
        flatMap_replaceClose_of_notMem hbefore, flatMap_replaceClose_of_notMem hafter,
        replaceClose, if_pos rfl, List.append_assoc]
    · rw [herrors, hcount]
      rfl
  · intro hopen
    rw [if_neg hopen] at hcount
    refine ⟨?_, ?_⟩
    · show events l₁ = events l₂
      rw [hevents, flatMap_replaceClose_of_notMem (List.count_eq_zero.1 hcount)]
    · rw [herrors, hcount]
      exact UInt64.add_zero _

/-- A file that is included, with what opening it gives left open. -/
def brokenFiles (f : Except Cause (List Delivery)) : FileSystem := fun q =>
  if q = .ofText "h".toList then f
  else if q = .ofText "m".toList then .ok [.bytes (Utf8.encode "#include \"h\"\n".toList)]
  else .error .notFound

/-- A trace of these files into a journal. -/
def brokenContext (f : Except Cause (List Delivery)) : Context Journal :=
  ⟨brokenFiles f, Journal.sink, none⟩

theorem brokenFiles_self (f : Except Cause (List Delivery)) :
    brokenFiles f (.ofText "h".toList) = f :=
  if_pos rfl

theorem brokenFiles_of_ne (f f' : Except Cause (List Delivery)) (q : Path)
    (hq : q ≠ .ofText "h".toList) : brokenFiles f q = brokenFiles f' q := by
  rw [brokenFiles, brokenFiles, if_neg hq, if_neg hq]

/-- Reading fails in the middle of the second line. -/
def cutFile : Except Cause (List Delivery) :=
  .ok [.bytes (Utf8.encode "#include \"x\"\n#inc".toList), .fault (.system 5)]

/-- The first line and nothing else. -/
def lineFile : Except Cause (List Delivery) :=
  .ok [.bytes (Utf8.encode "#include \"x\"\n".toList)]

theorem failsAs_cutFile (p : Path) :
    FailsAs p cutFile lineFile [.failed p .reading (.system 5), .close p] := by
  have hlines : wholeLines (Utf8.encode "#include \"x\"\n#inc".toList ++ [])
      = Utf8.encode "#include \"x\"\n".toList ++ [] := by decide +kernel
  have hcut : Utf8.encode "#include \"x\"\n#inc".toList ≠ [] := by decide +kernel
  have hline : Utf8.encode "#include \"x\"\n".toList ≠ [] := by decide +kernel
  refine .reading (.bytes hcut .fault) ?_
  rw [hlines]
  exact .bytes hline .nil

/-- The failure comes last before the file is closed, behind the visit of the included file. -/
theorem outcome_of_failsAs_line :
    ∃ o₁ o₂ before after,
      outcome (brokenContext cutFile) 20 (.ofText "m".toList) .empty (.empty none)
          = some o₁
        ∧ outcome (brokenContext lineFile) 20 (.ofText "m".toList) .empty
          (.empty none) = some o₂
        ∧ o₂.events.length = 8
        ∧ o₂.events = before ++ [.close (.ofText "h".toList)] ++ after
        ∧ o₁.events = before
          ++ [.failed (.ofText "h".toList) .reading (.system 5), .close (.ofText "h".toList)]
          ++ after := by
  have hmap₁ : (outcome (brokenContext cutFile) 20 (.ofText "m".toList) .empty
      (.empty none)).isSome = true := by decide +kernel
  have hmap₂ : (outcome (brokenContext lineFile) 20 (.ofText "m".toList) .empty
      (.empty none)).map (fun o => (o.events.length,
        openedAs? .empty (Path.ofText "h".toList).normalize o.events))
      = some (8, some (.ofText "h".toList)) := by decide +kernel
  obtain ⟨o₁, ho₁⟩ := Option.isSome_iff_exists.1 hmap₁
  obtain ⟨o₂, ho₂, heq⟩ := Option.map_eq_some_iff.1 hmap₂
  obtain ⟨hlen, hopen⟩ := Prod.mk.inj heq
  have hp : FailsAs (.ofText "h".toList) (brokenFiles cutFile (.ofText "h".toList))
      (brokenFiles lineFile (.ofText "h".toList))
      [.failed (.ofText "h".toList) .reading (.system 5), .close (.ofText "h".toList)] := by
    rw [brokenFiles_self, brokenFiles_self]
    exact failsAs_cutFile _
  have hlimit : (brokenContext cutFile).maxDepth = (brokenContext lineFile).maxDepth := rfl
  obtain ⟨t₁, t₂, -, -, -, -, -, -, -, -, hplace, -⟩ :=
    outcome_of_failsAs (Journal.neverRefuses_of_unlimited rfl)
      (Journal.neverRefuses_of_unlimited rfl) hlimit (brokenFiles_of_ne cutFile lineFile) hp ho₁ ho₂
  obtain ⟨before, after, -, h₂, h₁, -⟩ := hplace hopen
  exact ⟨o₁, o₂, before, after, ho₁, ho₂, hlen, h₂, h₁⟩

end Walk

end IncludeTrace
