import IncludeTrace.Proofs.Nesting
import IncludeTrace.Proofs.Reach

/-!
# Depth limits

A trace with a limit and a trace without one make the same steps until a quoted
directive is found in a file whose depth has reached the limit.  From there on they
may differ in everything.  So the limit does not show if there is no such directive,
and there is none if the files of the unlimited trace all lie higher up.

What the limit compares is the depth that the walk keeps on its stack.  Outside, a
limit is about brackets: how many files enclose a point between two events
(`enclosing`), and how many enclose a file (`level`).  A point between two steps is
enclosed by the files on the stack (`Moves.enclosing_eq`), and the level of a file is
its depth (`Moves.level_eq`).  This turns the total of the targets that were held
back into a number of events (`Moves.depthLimited_eq`).
-/

namespace IncludeTrace

namespace Tally

@[simp] theorem depthLimited_count (t : Tally) (e : Event) :
    (t.count e).depthLimited = t.depthLimited := by
  cases e with
  | enter p => rfl
  | found p d => cases hq : d.directive.quote <;> simp [count, hq]
  | failed p stage cause => rfl
  | close p => rfl

@[simp] theorem depthLimited_foldl_count (t : Tally) (es : List Event) :
    (es.foldl count t).depthLimited = t.depthLimited := by
  induction es generalizing t with
  | nil => rfl
  | cons e es ih => rw [List.foldl_cons, ih, depthLimited_count]

end Tally

theorem Event.isQuoted_of_leads {e : Event} (h : e.leads = false) : e.isQuoted = false := by
  cases e with
  | enter p => rfl
  | found p d => exact h
  | failed p stage cause => rfl
  | close p => rfl

theorem Event.ne_enter_of_leads {e : Event} (h : e.leads = false) (p : Path) : e ≠ .enter p := by
  rintro rfl
  cases h

namespace Walk

open Signal (events)

/-! ## Points between events -/

/-- The number of files that enclose the point between the events `es` and the events `es'`.  They
are entered before it and closed after it. -/
def enclosing (es es' : List Event) : Nat :=
  (closed es').countP fun q => decide (.enter q ∈ es)

/-- Of the events `es'`, which follow the events `es`, none enters a path inside more than `limit`
files. -/
def EntersWithin (limit : Nat) (es es' : List Event) : Prop :=
  ∀ ⦃es₁ : List Event⦄ ⦃p : Path⦄ ⦃es₂ : List Event⦄, es' = es₁ ++ .enter p :: es₂ →
    enclosing (es ++ es₁) es₂ ≤ limit

section Points

variable {limit : Nat} {es es' es'' : List Event} {e : Event}

theorem EntersWithin.nil : EntersWithin limit es [] := by
  intro es₁ p es₂ h
  simp at h

theorem EntersWithin.cons (he : ∀ p, e = .enter p → enclosing es es' ≤ limit)
    (h : EntersWithin limit (es ++ [e]) es') : EntersWithin limit es (e :: es') := by
  intro es₁ p es₂ heq
  cases es₁ with
  | nil =>
      obtain ⟨rfl, rfl⟩ := List.cons.inj heq
      rw [List.append_nil]
      exact he p rfl
  | cons e₁ es₁ =>
      obtain ⟨rfl, htail⟩ := List.cons.inj heq
      have hrest := h htail
      rwa [List.append_assoc] at hrest

/-- Events that enter nothing need not be looked at. -/
theorem EntersWithin.append (hq : ∀ e ∈ es', ∀ p, e ≠ .enter p)
    (h : EntersWithin limit (es ++ es') es'') : EntersWithin limit es (es' ++ es'') := by
  induction es' generalizing es with
  | nil => rwa [List.append_nil] at h
  | cons e es' ih =>
      refine .cons (fun p hp => absurd hp (hq e List.mem_cons_self p)) (ih ?_ ?_)
      · exact fun e' he' => hq e' (List.mem_cons_of_mem _ he')
      · rwa [List.append_assoc]

/-- Between a directive and its target there is nothing that opens or closes a file. -/
theorem enclosing_found (es es' : List Event) (p q : Path) (d : Located) :
    enclosing (es ++ [.found p d]) es' = enclosing es (.found p d :: .enter q :: es') := by
  show (closed es').countP _ = (closed es').countP _
  simp

end Points

section Limit

variable {files : FileSystem} {limit n : Nat} {p root : Path} {depth : Nat} {v : Visited}
  {b b' b'' : Position} {l l' : List Signal} {es : List Event}

/-- The files that enclose a point are those on the stack there. -/
theorem Moves.enclosing_eq {limit : Option Nat} (hms : Moves files limit n b l b')
    (hend : b'.stack = []) (ht : Tracks files v es b) (hn : Nested es b.stack) :
    enclosing es (events l) = b.stack.length := by
  have hvisited : ∀ q, decide (.enter q ∈ es) = true → b.visited.contains q.normalize = true := by
    intro q hq
    rw [ht.visited, Visited.contains_entered]
    exact .inr ⟨q, of_decide_eq_true hq, rfl⟩
  have hall : ∀ q ∈ b.stack.map OpenFile.path, decide (.enter q ∈ es) = true := by
    intro q hq
    obtain ⟨f, hf, rfl⟩ := List.mem_map.1 hq
    exact decide_eq_true (hn.enter_mem f hf)
  rw [enclosing, List.countP_eq_length_filter, hms.closed_of_visited hend hvisited,
    List.filter_eq_self.2 hall, List.length_map]

/-- A step enters a path only from a file above the limit. -/
theorem Move.entersWithin (hm : Move files (some limit) b l b')
    (hms : Moves files (some limit) n b' l' b'') (hend : b''.stack = [])
    (ht : Tracks files v es b) (hn : Nested es b.stack)
    (h : EntersWithin limit (es ++ events l) (events l')) :
    EntersWithin limit es (events l ++ events l') := by
  have hpoint := (Moves.head hm hms).enclosing_eq hend ht hn
  rw [Signal.events_append] at hpoint
  cases hm with
  | leave =>
      rw [Signal.events_map_event] at h ⊢
      refine h.append fun e he => ?_
      rcases List.mem_append.1 he with he | he
      · obtain ⟨cause, -, rfl⟩ := List.mem_map.1 he
        exact fun _ => Event.noConfusion
      · cases List.mem_singleton.1 he
        exact fun _ => Event.noConfusion
  | skip hd => exact h.append (by simp)
  | limited hd hl => exact h.append (by simp)
  | @follow _ _ p d ds fault depth rest l _ hd hl he =>
      obtain ⟨quiet, hl₁, hquiet⟩ := he.events_eq
      rw [Signal.events_event, hl₁] at hpoint h ⊢
      have hdepth : depth = rest.length := hn.depth_eq
      have hlt : depth < limit := by simpa using hl
      -- The point is enclosed by the file with the directive and the files below it.
      have hle : enclosing (es ++ [.found p d]) (quiet ++ events l') ≤ limit := by
        rw [enclosing_found es _ p (p.resolve d.directive.target) d]
        simp only [List.cons_append, List.length_cons] at hpoint
        omega
      refine .cons (by simp) (.cons (fun _ _ => hle) (.append ?_ ?_))
      · exact fun e he' => Event.ne_enter_of_leads (hquiet e he')
      · simpa using h

theorem Moves.entersWithin (hms : Moves files (some limit) n b l b') (hend : b'.stack = [])
    (ht : Tracks files v es b) (hn : Nested es b.stack) : EntersWithin limit es (events l) := by
  induction hms generalizing es with
  | refl => exact .nil
  | head hm hms ih =>
      rw [Signal.events_append]
      exact hm.entersWithin hms hend ht hn (ih hend (hm.tracks ht) (hm.nested ht hn))

/-! ## Depths within a limit -/

/-- The files on the stack and those that were opened before lie within a limit. -/
structure WithinLimit (limit : Nat) (b : Position) : Prop where
  counted : DepthsCounted b
  deepest_le : b.tally.deepest ≤ limit

theorem Enters.depthsCounted_init (he : Enters files root 0 (.init v) l b) :
    DepthsCounted b ∧ b.tally.deepest = 0 := by
  cases he with
  | again hv => exact ⟨by simp [DepthsCounted, Position.init], rfl⟩
  | missing hv hf => exact ⟨by simp [DepthsCounted, Position.init], rfl⟩
  | opened hv hf => exact ⟨by simp [DepthsCounted, Position.init, OpenFile.place], rfl⟩

/-- The total of the depth grows only for a file that is entered from above the limit. -/
theorem Move.deepest_le (hm : Move files (some limit) b l b') (h : b.tally.deepest ≤ limit) :
    b'.tally.deepest ≤ limit := by
  cases hm with
  | @leave _ _ p fault _ _ => cases fault <;> exact h
  | skip hd => simpa using h
  | limited hd hl => simpa [Tally.limited] using h
  | @follow _ _ p d _ _ depth _ _ _ hd hl he =>
      have hlt : depth < limit := by simpa using hl
      cases he with
      | again hv => simpa [Tally.duplicate] using h
      | missing hv hf => simpa using h
      | opened hv hf =>
          simp only [Tally.opened, Tally.deepest_count]
          exact Nat.max_le.2 ⟨h, hlt⟩

theorem Move.withinLimit (hm : Move files (some limit) b l b') (h : WithinLimit limit b) :
    WithinLimit limit b' :=
  ⟨hm.depthsCounted h.counted, hm.deepest_le h.deepest_le⟩

theorem Moves.withinLimit (hms : Moves files (some limit) n b l b') (h : WithinLimit limit b) :
    WithinLimit limit b' := by
  induction hms with
  | refl => exact h
  | head hm _ ih => exact ih (hm.withinLimit h)

/-! ## Targets that are held back -/

/-- Whether an event reports a quoted directive of a file whose level is `k`. -/
def quotedAt (es : List Event) (k : Nat) (e : Event) : Bool := e.isQuoted && level es e.path == k

theorem countP_quotedAt_of_isQuoted {es' : List Event} (h : ∀ e ∈ es', e.isQuoted = false)
    (es : List Event) (k : Nat) : es'.countP (quotedAt es k) = 0 := by
  rw [List.countP_eq_zero]
  intro e he
  rw [quotedAt, h e he]
  exact Bool.false_ne_true

theorem countP_quotedAt_found {d : Located} (hd : d.directive.isFollowed = true) (es : List Event)
    (k : Nat) (p : Path) :
    [.found p d].countP (quotedAt es k) = if level es p = k then 1 else 0 := by
  have hq : Event.isQuoted (.found p d) = true := hd
  rw [List.countP_singleton, quotedAt, hq, Bool.true_and]
  simp [Event.path]

theorem Enters.isQuoted_eq_false (he : Enters files p depth b l b') :
    ∀ e ∈ events l, e.isQuoted = false := by
  obtain ⟨quiet, hl, hquiet⟩ := he.events_eq
  rw [hl]
  intro e hmem
  rcases List.mem_cons.1 hmem with rfl | hmem
  · rfl
  · exact Event.isQuoted_of_leads (hquiet e hmem)

theorem Enters.depthLimited_eq (he : Enters files p depth b l b') :
    b'.tally.depthLimited = b.tally.depthLimited := by
  cases he with
  | again hv => rfl
  | missing hv hf => rfl
  | opened hv hf => rfl

/-- A step holds a target back just when it reports a quoted directive of a file at the limit, and
otherwise it is a step without a limit. -/
theorem Move.depthLimited_eq (hm : Move files (some limit) b l b')
    (htop : ∀ f rest, b.stack = f :: rest → level es f.path = f.depth ∧ f.depth ≤ limit) :
    b'.tally.depthLimited =
        b.tally.depthLimited + .ofNat ((events l).countP (quotedAt es limit)) ∧
      ((events l).countP (quotedAt es limit) = 0 → Move files none b l b') := by
  cases hm with
  | @leave _ _ p fault _ _ =>
      have hquiet : ∀ e ∈ OpenFile.closing p fault, e.isQuoted = false := by
        cases fault <;> simp [OpenFile.closing]
      rw [Signal.events_map_event, countP_quotedAt_of_isQuoted hquiet]
      exact ⟨by simp, fun _ => .leave⟩
  | @skip _ _ p d _ _ _ _ hd =>
      have hquiet : ∀ e ∈ [Event.found p d], e.isQuoted = false := by
        intro e he
        exact List.mem_singleton.1 he ▸ hd
      rw [Signal.events_event, Signal.events_nil, countP_quotedAt_of_isQuoted hquiet]
      exact ⟨by simp, fun _ => .skip hd⟩
  | @limited _ t p d ds fault depth rest hd hl =>
      obtain ⟨hlevel, hle⟩ : level es p = depth ∧ depth ≤ limit :=
        htop ⟨p, d :: ds, fault, depth⟩ rest rfl
      have hge : limit ≤ depth := by simpa using hl
      have hone := countP_quotedAt_found hd es limit p
      rw [if_pos (by omega)] at hone
      rw [Signal.events_event, Signal.events_note, Signal.events_nil, hone]
      exact ⟨by simp [Tally.limited], by simp⟩
  | @follow _ t p d ds fault depth rest l _ hd hl he =>
      obtain ⟨hlevel, hle⟩ : level es p = depth ∧ depth ≤ limit :=
        htop ⟨p, d :: ds, fault, depth⟩ rest rfl
      have hlt : depth < limit := by simpa using hl
      have hfound := countP_quotedAt_found hd es limit p
      rw [if_neg (by omega)] at hfound
      have hzero : (.found p d :: events l).countP (quotedAt es limit) = 0 := by
        rw [← List.singleton_append, List.countP_append, hfound,
          countP_quotedAt_of_isQuoted he.isQuoted_eq_false]
      rw [Signal.events_event, hzero, he.depthLimited_eq]
      exact ⟨by simp, fun _ => .follow hd rfl he⟩

/-- The total of the targets that are held back counts the quoted directives at the limit, and if
there are none, the limit makes no difference. -/
theorem Moves.depthLimited_eq (hms : Moves files (some limit) n b l b') (hend : b'.stack = [])
    (ht : Tracks files v es b) (hn : Nested es b.stack) (hwithin : WithinLimit limit b) :
    b'.tally.depthLimited =
        b.tally.depthLimited
          + .ofNat ((events l).countP (quotedAt (es ++ events l) limit)) ∧
      ((events l).countP (quotedAt (es ++ events l) limit) = 0 → Moves files none n b l b') := by
  induction hms generalizing es with
  | refl => exact ⟨by simp, fun _ => .refl⟩
  | @head n b b₁ b₂ l l' hm hms ih =>
      have hlevels := Moves.level_eq (.head hm hms) hend ht hn
      obtain ⟨hrest, hfree⟩ := ih hend (hm.tracks ht) (hm.nested ht hn) (hm.withinLimit hwithin)
      rw [List.append_assoc, ← Signal.events_append] at hrest hfree
      have htop : ∀ f rest, b.stack = f :: rest →
          level (es ++ events (l ++ l')) f.path = f.depth ∧ f.depth ≤ limit := by
        intro f rest hstack
        have hmem : (f.path, f.depth) ∈ b.stack.map OpenFile.place := by
          rw [hstack]
          exact List.mem_cons_self
        exact ⟨(hlevels _ hmem).2, (hwithin.counted _ hmem).trans hwithin.deepest_le⟩
      obtain ⟨hfirst, hstep⟩ := hm.depthLimited_eq htop
      rw [Signal.events_append, List.countP_append, ← Signal.events_append]
      refine ⟨?_, fun hzero => ?_⟩
      · rw [hrest, hfirst, UInt64.ofNat_add, UInt64.add_assoc]
      · exact .head (hstep (by omega)) (hfree (by omega))

/-! ## Limits that are not reached -/

theorem Move.deepest_mono {limit : Option Nat} (hm : Move files limit b l b') :
    b.tally.deepest ≤ b'.tally.deepest := by
  rcases hm.places with ⟨f, -, -, hdeep⟩ | ⟨-, -, hdeep⟩ | ⟨q, k, -, -, hdeep⟩
  · exact hdeep.ge
  · exact hdeep.ge
  · rw [hdeep]
    exact Nat.le_max_left ..

theorem Moves.deepest_mono {limit : Option Nat} (hms : Moves files limit n b l b') :
    b.tally.deepest ≤ b'.tally.deepest := by
  induction hms with
  | refl => exact Nat.le_refl _
  | head hm _ ih => exact hm.deepest_mono.trans ih

/-- A step without a limit is one with a limit, if the files that are open lie above it. -/
theorem Move.limit_unreached (hm : Move files none b l b') (hcounted : DepthsCounted b)
    (hlt : b.tally.deepest < limit) :
    Move files (some limit) b l b' ∧ b'.tally.depthLimited = b.tally.depthLimited := by
  cases hm with
  | leave => exact ⟨.leave, by simp⟩
  | skip hd => exact ⟨.skip hd, by simp⟩
  | limited hd hl => cases hl
  | @follow _ t p d _ _ depth _ _ _ hd hl he =>
      have hdepth : depth < limit := (hcounted (p, depth) List.mem_cons_self).trans_lt hlt
      have hlimit : (some limit).any (· ≤ depth) = false := by simpa using hdepth
      exact ⟨.follow hd hlimit he, by rw [he.depthLimited_eq]; simp⟩

theorem Moves.limit_unreached (hms : Moves files none n b l b') (hcounted : DepthsCounted b)
    (hlt : b'.tally.deepest < limit) :
    Moves files (some limit) n b l b' ∧ b'.tally.depthLimited = b.tally.depthLimited := by
  induction hms with
  | refl => exact ⟨.refl, rfl⟩
  | head hm hms ih =>
      obtain ⟨hstep, hfirst⟩ :=
        hm.limit_unreached hcounted ((hm.deepest_mono.trans hms.deepest_mono).trans_lt hlt)
      obtain ⟨hrest, hlater⟩ := ih (hm.depthsCounted hcounted) hlt
      exact ⟨.head hstep hrest, hlater.trans hfirst⟩

/-! ## Traces -/

/-- The totals of a trace with a limit, and that it is a trace without one if no quoted directive
is found at the limit. -/
theorem TraceTo.depthLimited_eq (ht : TraceTo files (some limit) root v n l b)
    (hend : b.stack = []) :
    b.tally.depthLimited = .ofNat ((events l).countP (quotedAt (events l) limit)) ∧
      ((events l).countP (quotedAt (events l) limit) = 0 → TraceTo files none root v n l b) := by
  cases ht with
  | @intro b₁ _ l₁ l₂ he hms =>
      obtain ⟨hcounted, hzero⟩ := he.depthsCounted_init
      obtain ⟨hlimited, hfree⟩ := hms.depthLimited_eq hend (he.tracks (.init files v))
        (he.nested (.init files v) .nil rfl) ⟨hcounted, hzero ▸ Nat.zero_le limit⟩
      rw [List.nil_append, ← Signal.events_append] at hlimited hfree
      rw [Signal.events_note, Signal.events_append, List.countP_append,
        countP_quotedAt_of_isQuoted he.isQuoted_eq_false, Nat.zero_add, ← Signal.events_append]
      refine ⟨?_, fun hnone => .intro he (hfree hnone)⟩
      rw [hlimited, he.depthLimited_eq]
      exact UInt64.zero_add _

theorem TraceTo.entersWithin (ht : TraceTo files (some limit) root v n l b) (hend : b.stack = []) :
    EntersWithin limit [] (events l) := by
  cases ht with
  | @intro b₁ _ l₁ l₂ he hms =>
      have hrest := hms.entersWithin hend (he.tracks (.init files v))
        (he.nested (.init files v) .nil rfl)
      obtain ⟨quiet, hl₁, hquiet⟩ := he.events_eq
      rw [Signal.events_note, Signal.events_append, hl₁]
      rw [List.nil_append, hl₁] at hrest
      refine .cons (fun _ _ => ?_) (.append ?_ hrest)
      · simp [enclosing]
      · exact fun e hmem => Event.ne_enter_of_leads (hquiet e hmem)

theorem TraceTo.deepest_le (ht : TraceTo files (some limit) root v n l b) :
    b.tally.deepest ≤ limit := by
  cases ht with
  | intro he hms =>
      obtain ⟨hcounted, hzero⟩ := he.depthsCounted_init
      exact (hms.withinLimit ⟨hcounted, hzero ▸ Nat.zero_le limit⟩).deepest_le

/-- A trace without a limit is one with a limit that lies below all files it opens. -/
theorem TraceTo.limit_unreached (ht : TraceTo files none root v n l b)
    (hlt : b.tally.deepest < limit) :
    TraceTo files (some limit) root v n l b ∧ b.tally.depthLimited = 0 := by
  cases ht with
  | intro he hms =>
      obtain ⟨hmoves, hsame⟩ := hms.limit_unreached he.depthsCounted_init.1 hlt
      exact ⟨.intro he hmoves, hsame.trans he.depthLimited_eq⟩

end Limit

/-- What a limit does to a trace.  If the trace with the limit holds no target back, it has the
events, the visited paths and the totals of the trace without one; this takes for granted that the
word with which such targets are counted does not overflow.  If the files of the trace without a
limit all lie above the limit, the trace with the limit is the same and holds no target back.  And
in every trace with the limit no path is entered inside more files than the limit allows, no file
is opened deeper, and the targets that are held back are those of the quoted directives in files at
the limit. -/
theorem outcome_of_limit {σ τ : Type} {files : FileSystem} {k : Sink σ} {s : σ} {k' : Sink τ}
    {s' : τ} (hs : k.NeverRefuses s) (hs' : k'.NeverRefuses s') (limit : Nat) (root : Path)
    (v : Visited) :
    (∀ fuel o t, outcome ⟨files, k, some limit⟩ fuel root v s = some o → o.result = .ok t →
        t.depthLimited = 0 → o.events.countP (quotedAt o.events limit) < 2 ^ 64 →
        outcome ⟨files, k', none⟩ fuel root v s' = some o)
      ∧ (∀ fuel o t, outcome ⟨files, k', none⟩ fuel root v s' = some o → o.result = .ok t →
        t.deepest < limit →
        outcome ⟨files, k, some limit⟩ fuel root v s = some o ∧ t.depthLimited = 0)
      ∧ ∀ fuel o t, outcome ⟨files, k, some limit⟩ fuel root v s = some o → o.result = .ok t →
        (∀ es p es', o.events = es ++ .enter p :: es' → enclosing es es' ≤ limit)
          ∧ t.deepest ≤ limit
          ∧ t.depthLimited = .ofNat (o.events.countP (quotedAt o.events limit)) := by
  refine ⟨?_, ?_, ?_⟩
  · intro fuel o t h ht hzero hfew
    obtain ⟨n, l, b, htrace, hend, hn, rfl⟩ := (outcome_eq_some_iff_of_neverRefuses hs).1 h
    cases ht
    obtain ⟨hcount, hfree⟩ := htrace.depthLimited_eq hend
    have hnone : (events l).countP (quotedAt (events l) limit) = 0 := by
      rw [← UInt64.toNat_ofNat_of_lt' hfew, ← hcount, hzero]
      rfl
    exact (outcome_eq_some_iff_of_neverRefuses hs').2 ⟨n, l, b, hfree hnone, hend, hn, rfl⟩
  · intro fuel o t h ht hlt
    obtain ⟨n, l, b, htrace, hend, hn, rfl⟩ := (outcome_eq_some_iff_of_neverRefuses hs').1 h
    cases ht
    obtain ⟨hlimited, hzero⟩ := htrace.limit_unreached hlt
    exact ⟨(outcome_eq_some_iff_of_neverRefuses hs).2 ⟨n, l, b, hlimited, hend, hn, rfl⟩, hzero⟩
  · intro fuel o t h ht
    obtain ⟨n, l, b, htrace, hend, -, rfl⟩ := (outcome_eq_some_iff_of_neverRefuses hs).1 h
    cases ht
    exact ⟨fun es p es' hes => htrace.entersWithin hend hes, htrace.deepest_le,
      (htrace.depthLimited_eq hend).1⟩

/-- A limit of two does not show, since no file is opened below the second.  A limit of one keeps
the trace from two targets of the second file. -/
theorem outcome_of_limit_mutual :
    ∃ o t o' t', outcome ⟨mutualFiles, Journal.sink, some 2⟩ 20 (.ofText "./m".toList) .empty
          (.empty none) = some o
      ∧ o.result = .ok t ∧ t.depthLimited = 0 ∧ t.deepest < 2
      ∧ outcome ⟨mutualFiles, Journal.sink, none⟩ 20 (.ofText "./m".toList) .empty (.empty none)
          = some o
      ∧ outcome ⟨mutualFiles, Journal.sink, some 1⟩ 20 (.ofText "./m".toList) .empty (.empty none)
          = some o'
      ∧ o'.result = .ok t' ∧ t'.deepest ≤ 1 ∧ t'.depthLimited = 2 := by
  have htwo : (outcome ⟨mutualFiles, Journal.sink, some 2⟩ 20 (.ofText "./m".toList) .empty
      (.empty none)).map (fun o => (o.result.toOption.map fun t => (t.depthLimited, t.deepest),
        o.events.countP (quotedAt o.events 2))) = some (some (0, 1), 0) := by decide +kernel
  have hone : (outcome ⟨mutualFiles, Journal.sink, some 1⟩ 20 (.ofText "./m".toList) .empty
      (.empty none)).map (fun o => (o.result.isOk, o.events.countP (quotedAt o.events 1)))
      = some (true, 2) := by decide +kernel
  have hjournal := Journal.neverRefuses_of_unlimited (j := .empty none) rfl
  obtain ⟨o, ho, heq⟩ := Option.map_eq_some_iff.1 htwo
  obtain ⟨o', ho', heq'⟩ := Option.map_eq_some_iff.1 hone
  obtain ⟨htotals, hnone⟩ := Prod.mk.inj heq
  obtain ⟨hok, hcount⟩ := Prod.mk.inj heq'
  obtain ⟨t', hres'⟩ := Outcome.exists_ok hok
  cases hres : o.result with
  | error cause => rw [hres] at htotals; cases htotals
  | ok t =>
      obtain ⟨hzero, hdeep⟩ : t.depthLimited = 0 ∧ t.deepest = 1 := by
        simpa [hres, Except.toOption] using htotals
      have hfree := (outcome_of_limit hjournal hjournal 2 _ _).1 20 o t ho hres hzero
        (by rw [hnone]; decide)
      obtain ⟨-, hle, hlimited⟩ :=
        (outcome_of_limit hjournal hjournal 1 _ _).2.2 20 o' t' ho' hres'
      rw [hcount] at hlimited
      exact ⟨o, t, o', t', ho, hres, hzero, by omega, hfree, ho', hres', hle, hlimited⟩

end Walk

end IncludeTrace
