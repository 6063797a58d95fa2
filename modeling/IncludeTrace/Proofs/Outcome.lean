import IncludeTrace.Proofs.Move

/-!
# What comes of a trace

`Move` says what a walk does when nothing is refused.  Here every sink is
admitted.  `Performs` says that a result is what comes of feeding the signals of
some work to a sink: the position after the work if all events are accepted, and
otherwise a refusal, with the visited paths that the accepted events account for.
`step_performs`, `run_performs` and `trace_performs` say it of a step, a run and a
trace; `exists_moves_of_run` and `exists_traceTo` go back from results to moves.

The caller of a trace sees its `Outcome`: the events that were accepted, the
visited paths, and the totals or the reason of a refusal.

The main statement is about a sink that refuses its `n`-th event.  The outcome is
then cut off exactly there, and the visited paths are those that were there before
and those of the accepted `enter` events.
-/

namespace IncludeTrace

namespace Walk

open Signal (events)

variable {σ τ : Type}

/-! ## Signals and results -/

/-- The result `r` is what comes of some work that makes the signals `l` and leads to the position
`b`, with a sink that remembers `s` at first.  The paths in `v` are visited before. -/
def Performs (c : Context σ) (s : σ) (v : Visited) (l : List Signal) (b : Position)
    (r : Result σ) : Prop :=
  match c.sink.feed s l with
  | (s', none) => r = .ok (b.walk s')
  | (s', some cause) =>
      ∃ w, r = .error (w, cause) ∧ w.sink = s' ∧ w.visited = v.entered (c.sink.accepted s l)

section Performs

variable {c : Context σ} {s s' : σ} {v v' : Visited} {l l' : List Signal} {b b' : Position}
  {r : Result σ} {e : Event} {cause : Cause}

theorem Performs.eq_ok (h : Performs c s v l b r) (hs : c.sink.feed s l = (s', none)) :
    r = .ok (b.walk s') := by
  unfold Performs at h
  rwa [hs] at h

theorem Performs.exists_eq_error (h : Performs c s v l b r)
    (hs : c.sink.feed s l = (s', some cause)) :
    ∃ w, r = .error (w, cause) ∧ w.sink = s' ∧ w.visited = v.entered (c.sink.accepted s l) := by
  unfold Performs at h
  rwa [hs] at h

theorem Performs.done : Performs c s v [] b (.ok (b.walk s)) := rfl

theorem Performs.note {n : Note} (h : Performs c (c.sink.note s n) v l b r) :
    Performs c s v (.note n :: l) b r := h

theorem Performs.append_ok (hs : c.sink.feed s l = (s', none))
    (hv : v' = v.entered (events l)) (h : Performs c s' v' l' b r) :
    Performs c s v (l ++ l') b r := by
  unfold Performs at h ⊢
  rw [c.sink.feed_append_ok hs, c.sink.accepted_append_ok hs, Visited.entered_append, ← hv]
  exact h

theorem Performs.append_refused (hs : c.sink.feed s l = (s', some cause))
    (h : Performs c s v l b' r) (l' : List Signal) (b : Position) :
    Performs c s v (l ++ l') b r := by
  unfold Performs at h ⊢
  rw [hs] at h
  rw [c.sink.feed_append_refused hs, c.sink.accepted_append_refused hs]
  exact h

theorem Performs.event_ok (ha : c.sink.accept s e = (s', none))
    (h : Performs c s' (v.record e) l b r) : Performs c s v (.event e :: l) b r :=
  .append_ok (l := [.event e]) (by simp [Sink.feed, ha]) rfl h

theorem Performs.event_refused {w : Walk σ} (ha : c.sink.accept s e = (s', some cause))
    (hs : w.sink = s') (hv : w.visited = v) :
    Performs c s v (.event e :: l) b (.error (w, cause)) := by
  unfold Performs
  rw [Sink.feed, Sink.accepted, ha]
  exact ⟨w, rfl, hs, hv⟩

end Performs

section Relay

variable {c : Context σ} {p : Path} {depth : Nat} {b b' : Position} {l : List Signal}

theorem send_ok {s s' : σ} {e : Event} (ha : c.sink.accept s e = (s', none)) :
    (b.walk s).send c e = .ok (Position.walk ⟨b.visited, b.tally.count e, b.stack⟩ s') := by
  simp [send, Position.walk, ha]

theorem send_refused {s s' : σ} {e : Event} {cause : Cause}
    (ha : c.sink.accept s e = (s', some cause)) :
    (b.walk s).send c e =
      .error (Position.walk ⟨b.visited, b.tally.count e, b.stack⟩ s', cause) := by
  simp [send, Position.walk, ha]

/-- One event and nothing more. -/
theorem send_performs (c : Context σ) (s : σ) (e : Event) (b : Position) :
    Performs c s b.visited [.event e] ⟨b.visited, b.tally.count e, b.stack⟩
      ((b.walk s).send c e) := by
  rcases ha : c.sink.accept s e with ⟨s', _ | cause⟩
  · rw [send_ok ha]
    exact .event_ok ha .done
  · rw [send_refused ha]
    exact .event_refused ha rfl rfl

/-- An event, and what is done once it is accepted. -/
theorem Performs.send {s : σ} {e : Event} {next : Walk σ → Result σ}
    (h : ∀ s', Performs c s' (b.visited.record e) l b'
      (next (Position.walk ⟨b.visited, b.tally.count e, b.stack⟩ s'))) :
    Performs c s b.visited (.event e :: l) b' (((b.walk s).send c e).bind next) := by
  rcases ha : c.sink.accept s e with ⟨s', _ | cause⟩
  · rw [send_ok ha]
    exact .event_ok ha (h s')
  · rw [send_refused ha]
    exact .event_refused ha rfl rfl

theorem enter_eq_bind (c : Context σ) (p : Path) (depth : Nat) (w : Walk σ) :
    w.enter c p depth = (w.send c (.enter p)).bind fun w =>
      if w.visited.contains p.normalize then
        .ok ({ w with tally := w.tally.duplicate }.note c (.alreadyVisited p))
      else { w with visited := w.visited.insert p.normalize }.openPath c p depth := by
  rw [enter]
  cases w.send c (.enter p) with
  | error stop => rfl
  | ok w =>
      cases hv : w.visited.contains p.normalize <;>
        simp [Except.bind, Visited.containsThenInsert_eq, hv]

theorem report_eq_bind (c : Context σ) (f : OpenFile) (d : Located) (w : Walk σ) :
    w.report c f d = (w.send c (.found f.path d)).bind fun w =>
      if d.directive.isFollowed then w.follow c (f.path.resolve d.directive.target) f.depth
      else .ok w := by
  rw [report]
  cases w.send c (.found f.path d) <;> rfl

/-- Entering a path does what `Enters` says, up to a refusal. -/
theorem enter_performs (c : Context σ) (s : σ) (h : Enters c.files p depth b l b') :
    Performs c s b.visited l b' ((b.walk s).enter c p depth) := by
  rw [enter_eq_bind]
  cases h with
  | again hv =>
      refine Performs.send fun s' => ?_
      rw [if_pos (by exact hv), Visited.record_enter, Visited.insert_of_contains hv]
      exact .note .done
  | missing hv hf =>
      refine Performs.send fun s' => ?_
      rw [if_neg (by simp [Position.walk, hv]), openPath, hf]
      exact .note (send_performs c _ _ ⟨b.visited.insert p.normalize, b.tally, b.stack⟩)
  | opened hv hf =>
      refine Performs.send fun s' => ?_
      rw [if_neg (by simp [Position.walk, hv]), openPath, hf]
      exact .note .done

theorem leave_performs (c : Context σ) (s : σ) (f : OpenFile) (b : Position) :
    Performs c s b.visited ((OpenFile.closing f.path f.fault).map .event)
      ⟨b.visited, (OpenFile.closing f.path f.fault).foldl Tally.count b.tally, b.stack⟩
      ((b.walk s).leave c f) := by
  obtain ⟨p, pending, fault, depth⟩ := f
  cases fault with
  | none => exact send_performs c s _ b
  | some cause =>
      have hleave : (b.walk s).leave c ⟨p, pending, some cause, depth⟩ =
          ((b.walk s).send c (.failed p .reading cause)).bind fun w => w.send c (.close p) := by
        simp only [leave]
        cases (b.walk s).send c (.failed p .reading cause) <;> rfl
      rw [hleave]
      refine Performs.send fun s' => ?_
      exact send_performs c s' _ ⟨b.visited, _, b.stack⟩

/-- A step does what `Move` says, up to a refusal. -/
theorem step_performs (c : Context σ) (s : σ) (h : Move c.files c.maxDepth b l b') :
    Performs c s b.visited l b' ((b.walk s).step c) := by
  cases h with
  | @leave v t p fault depth rest =>
      exact leave_performs c s ⟨p, [], fault, depth⟩ ⟨v, t, rest⟩
  | @skip v t p d ds fault depth rest hd =>
      show Performs c s v _ _ (report c _ d (Position.walk ⟨v, t, ⟨p, ds, fault, depth⟩ :: rest⟩ s))
      rw [report_eq_bind]
      refine Performs.send fun s' => ?_
      rw [if_neg (by simp [hd])]
      exact .done
  | @limited v t p d ds fault depth rest hd hl =>
      show Performs c s v _ _ (report c _ d (Position.walk ⟨v, t, ⟨p, ds, fault, depth⟩ :: rest⟩ s))
      rw [report_eq_bind]
      refine Performs.send fun s' => ?_
      rw [if_pos hd, follow, Context.tooDeep, if_pos hl]
      exact .note .done
  | @follow v t p d ds fault depth rest l b hd hl he =>
      show Performs c s v _ _ (report c _ d (Position.walk ⟨v, t, ⟨p, ds, fault, depth⟩ :: rest⟩ s))
      rw [report_eq_bind]
      refine Performs.send fun s' => ?_
      rw [if_pos hd, follow, Context.tooDeep, if_neg (by simp [hl])]
      exact enter_performs c s' he

end Relay

/-! ## Runs and traces -/

/-- Some work of `n` steps is all a walk does with `fuel` looks at its stack: it leaves the last
file, or the sink refuses an event. -/
def Ended (c : Context σ) (s : σ) (fuel n : Nat) (l : List Signal) (b : Position) : Prop :=
  (b.stack = [] ∧ n < fuel) ∨ ((c.sink.feed s l).2 ≠ none ∧ n ≤ fuel)

section Runs

variable {c : Context σ} {s s' : σ} {root : Path} {v : Visited} {b b' : Position}
  {l l' : List Signal} {fuel n : Nat} {r : Result σ}

theorem Ended.mono {fuel' : Nat} (h : Ended c s fuel n l b) (hf : fuel ≤ fuel') :
    Ended c s fuel' n l b := by
  rcases h with ⟨hb, hn⟩ | ⟨hs, hn⟩
  · exact .inl ⟨hb, by omega⟩
  · exact .inr ⟨hs, by omega⟩

/-- What is left to do once a beginning was accepted. -/
theorem Ended.rest (hs : c.sink.feed s l = (s', none)) (h : Ended c s (fuel + 1) (n + 1) (l ++ l') b) :
    Ended c s' fuel n l' b := by
  unfold Ended at h
  rw [c.sink.feed_append_ok hs] at h
  rcases h with ⟨hb, hn⟩ | ⟨hs, hn⟩
  · exact .inl ⟨hb, by omega⟩
  · exact .inr ⟨hs, by omega⟩

theorem Ended.extend (hs : c.sink.feed s l = (s', none)) (h : Ended c s' fuel n l' b) :
    Ended c s (fuel + 1) (n + 1) (l ++ l') b := by
  unfold Ended
  rw [c.sink.feed_append_ok hs]
  rcases h with ⟨hb, hn⟩ | ⟨hs, hn⟩
  · exact .inl ⟨hb, by omega⟩
  · exact .inr ⟨hs, by omega⟩

theorem Move.stack_ne_nil {files : FileSystem} {limit : Option Nat} (h : Move files limit b l b') :
    b.stack ≠ [] := by
  cases h <;> simp

theorem run_of_stack_nil (h : b.stack = []) :
    run c (fuel + 1) (b.walk s) = some (.ok (b.walk s)) := by
  simp [run, Position.walk, h]

theorem run_of_stack_ne_nil (h : b.stack ≠ []) :
    run c (fuel + 1) (b.walk s) =
      match (b.walk s).step c with
      | .error stop => some (.error stop)
      | .ok w => run c fuel w := by
  obtain ⟨v, t, stack⟩ := b
  obtain ⟨f, rest, rfl⟩ := List.exists_cons_of_ne_nil h
  rfl

/-- A run does what `Moves` says, up to a refusal. -/
theorem run_performs (h : Moves c.files c.maxDepth n b l b') (hend : Ended c s fuel n l b') :
    ∃ r, run c fuel (b.walk s) = some r ∧ Performs c s b.visited l b' r := by
  induction h generalizing s fuel with
  | @refl b =>
      rcases hend with ⟨hb, hn⟩ | ⟨hs, _⟩
      · obtain ⟨fuel, rfl⟩ : ∃ m, fuel = m + 1 := ⟨fuel - 1, by omega⟩
        exact ⟨_, run_of_stack_nil hb, .done⟩
      · exact absurd rfl hs
  | @head n b b₁ b₂ l l' hm hms ih =>
      obtain ⟨fuel, rfl⟩ : ∃ m, fuel = m + 1 :=
        ⟨fuel - 1, by rcases hend with ⟨_, _⟩ | ⟨_, _⟩ <;> omega⟩
      have hstep := step_performs c s hm
      rw [run_of_stack_ne_nil hm.stack_ne_nil]
      -- Either the step is accepted and the rest of the run goes on from there, or it is the last.
      rcases hs : c.sink.feed s l with ⟨s', _ | cause⟩
      · obtain ⟨r, hr, hperf⟩ := ih (hend.rest hs)
        rw [hstep.eq_ok hs]
        exact ⟨r, hr, hperf.append_ok hs hm.visited_eq⟩
      · obtain ⟨w, hw, -⟩ := hstep.exists_eq_error hs
        rw [hw] at hstep ⊢
        exact ⟨_, rfl, hstep.append_refused hs l' b₂⟩

/-- Every result of a run comes of moves. -/
theorem exists_moves_of_run (h : run c fuel (b.walk s) = some r) :
    ∃ n l b', Moves c.files c.maxDepth n b l b' ∧ Ended c s fuel n l b' ∧
      Performs c s b.visited l b' r := by
  induction fuel generalizing b s with
  | zero => simp [run] at h
  | succ fuel ih =>
      by_cases hb : b.stack = []
      · rw [run_of_stack_nil hb] at h
        cases h
        exact ⟨0, [], b, .refl, .inl ⟨hb, by omega⟩, .done⟩
      · obtain ⟨l, b₁, hm⟩ := exists_move c.files c.maxDepth hb
        have hstep := step_performs c s hm
        rw [run_of_stack_ne_nil hb] at h
        rcases hs : c.sink.feed s l with ⟨s', _ | cause⟩
        · rw [hstep.eq_ok hs] at h
          obtain ⟨n, l', b', hms, hend, hperf⟩ := ih h
          exact ⟨n + 1, l ++ l', b', .head hm hms, hend.extend hs,
            hperf.append_ok hs hm.visited_eq⟩
        · obtain ⟨w, hw, -⟩ := hstep.exists_eq_error hs
          rw [hw] at h hstep
          cases h
          exact ⟨1, l, b₁, .single hm, .inr ⟨by simp [hs], by omega⟩, hstep⟩

/-- The note at the end is the last signal of a trace. -/
theorem Performs.finish (h : Performs c s v l b r) :
    Performs c s v (l ++ [.note (.traceComplete b.tally)]) b (r.map (Walk.finish c)) := by
  rcases hs : c.sink.feed s l with ⟨s', _ | cause⟩
  · rw [h.eq_ok hs]
    exact Performs.append_ok hs rfl (.note .done)
  · obtain ⟨w, rfl, -⟩ := h.exists_eq_error hs
    exact h.append_refused hs _ _

/-- A trace does what `TraceTo` says, up to a refusal. -/
theorem trace_performs (h : TraceTo c.files c.maxDepth root v n l b)
    (hend : Ended c s fuel n l b) :
    ∃ r, trace c fuel root v s = some r ∧
      Performs c s v (l ++ [.note (.traceComplete b.tally)]) b r := by
  obtain @⟨b₁, _, l₁, l₂, he, hms⟩ := h
  have hstart : Performs c _ v l₁ b₁ (start c root v s) :=
    enter_performs c (c.sink.note s (.traceStarts root)) he
  rw [trace]
  rcases hs : c.sink.feed (c.sink.note s (.traceStarts root)) l₁ with ⟨s', _ | cause⟩
  · have hok := hstart.eq_ok hs
    have hend' : Ended c s' fuel n l₂ b := by
      have hfeed : c.sink.feed s (.note (.traceStarts root) :: (l₁ ++ l₂)) = c.sink.feed s' l₂ :=
        c.sink.feed_append_ok hs l₂
      simpa [Ended, hfeed] using hend
    obtain ⟨r, hr, hperf⟩ := run_performs hms hend'
    refine ⟨r.map (finish c), by simp [hok, hr], ?_⟩
    have hall := hperf.finish.append_ok hs he.visited_eq
    rw [← List.append_assoc] at hall
    exact hall.note
  · obtain ⟨w, hw, -⟩ := hstart.exists_eq_error hs
    rw [hw] at hstart ⊢
    refine ⟨_, rfl, ?_⟩
    have hall := hstart.append_refused hs (l₂ ++ [.note (.traceComplete b.tally)]) b
    rw [← List.append_assoc] at hall
    exact hall.note

/-- Every result of a trace comes of moves. -/
theorem exists_traceTo (h : trace c fuel root v s = some r) :
    ∃ n l b, TraceTo c.files c.maxDepth root v n l b ∧ Ended c s fuel n l b := by
  obtain ⟨l₁, b₁, he⟩ := exists_enters c.files root 0 (.init v)
  have hstart : Performs c _ v l₁ b₁ (start c root v s) :=
    enter_performs c (c.sink.note s (.traceStarts root)) he
  rw [trace] at h
  rcases hs : c.sink.feed (c.sink.note s (.traceStarts root)) l₁ with ⟨s', _ | cause⟩
  · rw [hstart.eq_ok hs] at h
    obtain ⟨r', hr', -⟩ := Option.map_eq_some_iff.1 h
    obtain ⟨n, l₂, b, hms, hend, -⟩ := exists_moves_of_run hr'
    refine ⟨n, _, b, .intro he hms, ?_⟩
    have hfeed : c.sink.feed s (.note (.traceStarts root) :: (l₁ ++ l₂)) = c.sink.feed s' l₂ :=
      c.sink.feed_append_ok hs l₂
    simpa [Ended, hfeed] using hend
  · refine ⟨0, _, b₁, .intro he .refl, .inr ⟨?_, by omega⟩⟩
    simp [Sink.feed, hs]

end Runs

/-! ## Outcomes -/

/-- What the caller sees of a trace. -/
structure Outcome where
  /-- The events the sink accepted, oldest first. -/
  events : List Event
  /-- The visited paths afterwards. -/
  visited : Visited
  /-- The totals, or why an event was refused. -/
  result : Except Cause Tally

/-- What a trace works with, and a record of the accepted events. -/
def Context.kept (c : Context σ) : Context (List Event × σ) := ⟨c.files, c.sink.kept, c.maxDepth⟩

/-- The outcome in the result of a trace whose sink kept a record. -/
def outcomeOf : Result (List Event × σ) → Outcome
  | .ok w => ⟨w.sink.1, w.visited, .ok w.tally⟩
  | .error (w, cause) => ⟨w.sink.1, w.visited, .error cause⟩

/-- The outcome of a trace. -/
def outcome (c : Context σ) (fuel : Nat) (root : Path) (v : Visited) (s : σ) : Option Outcome :=
  (trace c.kept fuel root v ([], s)).map outcomeOf

/-- The outcome of signals that a sink is fed with on the way to a position. -/
def Outcome.ofSignals (k : Sink σ) (s : σ) (v : Visited) (l : List Signal) (b : Position) :
    Outcome where
  events := k.accepted s l
  visited := v.entered (k.accepted s l)
  result :=
    match (k.feed s l).2 with
    | none => .ok b.tally
    | some cause => .error cause

section Outcomes

variable {c : Context σ} {s : σ} {root : Path} {v : Visited} {b : Position} {l : List Signal}
  {fuel n : Nat} {o : Outcome}

theorem ended_kept : Ended c.kept ([], s) fuel n l b ↔ Ended c s fuel n l b := by
  simp [Ended, Context.kept, Sink.feed_kept]

/-- A trailing note makes no difference to an outcome. -/
theorem Outcome.ofSignals_append_note (k : Sink σ) (s : σ) (v : Visited) (l : List Signal)
    (m : Note) (b : Position) : ofSignals k s v (l ++ [.note m]) b = ofSignals k s v l b := by
  rcases hs : k.feed s l with ⟨s', _ | cause⟩
  · have hacc : k.accepted s (l ++ [.note m]) = k.accepted s l := by
      rw [Sink.accepted_append_ok hs, Sink.accepted_of_ok (l := l) (by rw [hs])]
      exact List.append_nil _
    simp [ofSignals, hacc, Sink.feed_append_ok hs, hs, Sink.feed]
  · simp [ofSignals, Sink.accepted_append_refused hs, Sink.feed_append_refused hs, hs]

theorem outcomeOf_eq {r : Result (List Event × σ)} (hv : b.visited = v.entered (events l))
    (h : Performs c.kept ([], s) v l b r) : outcomeOf r = .ofSignals c.sink s v l b := by
  have hkept : c.kept.sink.feed ([], s) l =
      ((c.sink.accepted s l, (c.sink.feed s l).1), (c.sink.feed s l).2) :=
    c.sink.feed_kept [] s l
  rcases hs : c.sink.feed s l with ⟨s', _ | cause⟩
  · rw [hs] at hkept
    have hacc : c.sink.accepted s l = events l := Sink.accepted_of_ok (by rw [hs])
    rw [h.eq_ok hkept]
    simp [outcomeOf, Outcome.ofSignals, Position.walk, hs, hacc, hv]
  · rw [hs] at hkept
    obtain ⟨w, rfl, hw, hvis⟩ := h.exists_eq_error hkept
    have hrec : c.kept.sink.accepted ([], s) l = c.sink.accepted s l := c.sink.accepted_kept [] s l
    simp [outcomeOf, Outcome.ofSignals, hs, hw, hvis, hrec]

/-- The outcomes of a trace are those of the signals that it makes. -/
theorem outcome_eq_some_iff :
    outcome c fuel root v s = some o ↔
      ∃ n l b, TraceTo c.files c.maxDepth root v n l b ∧ Ended c s fuel n l b ∧
        o = .ofSignals c.sink s v l b := by
  constructor
  · intro h
    obtain ⟨r, hr, rfl⟩ := Option.map_eq_some_iff.1 h
    obtain ⟨n, l, b, ht, hend⟩ := exists_traceTo hr
    obtain ⟨r', hr', hperf⟩ := trace_performs ht hend
    cases hr.symm.trans hr'
    refine ⟨n, l, b, ht, ended_kept.1 hend, ?_⟩
    rw [outcomeOf_eq (by simpa using ht.visited_eq) hperf, Outcome.ofSignals_append_note]
  · rintro ⟨n, l, b, ht, hend, rfl⟩
    obtain ⟨r, hr, hperf⟩ := trace_performs (c := c.kept) ht (ended_kept.2 hend)
    rw [outcome, hr, Option.map_some,
      outcomeOf_eq (by simpa using ht.visited_eq) hperf, Outcome.ofSignals_append_note]

/-- More looks at the stack than suffice change nothing. -/
theorem outcome_mono {fuel' : Nat} (h : outcome c fuel root v s = some o) (hf : fuel ≤ fuel') :
    outcome c fuel' root v s = some o := by
  obtain ⟨n, l, b, ht, hend, rfl⟩ := outcome_eq_some_iff.1 h
  exact outcome_eq_some_iff.2 ⟨n, l, b, ht, hend.mono hf, rfl⟩

/-- What the caller sees of a trace, the events apart. -/
def answerOf : Result σ → Visited × Except Cause Tally
  | .ok w => (w.visited, .ok w.tally)
  | .error (w, cause) => (w.visited, .error cause)

theorem answerOf_eq {r : Result σ} (hv : b.visited = v.entered (events l))
    (h : Performs c s v l b r) :
    answerOf r =
      ((Outcome.ofSignals c.sink s v l b).visited, (Outcome.ofSignals c.sink s v l b).result) := by
  rcases hs : c.sink.feed s l with ⟨s', _ | cause⟩
  · have hacc : c.sink.accepted s l = events l := Sink.accepted_of_ok (by rw [hs])
    rw [h.eq_ok hs]
    simp [answerOf, Outcome.ofSignals, Position.walk, hs, hacc, hv]
  · obtain ⟨w, rfl, -, hvis⟩ := h.exists_eq_error hs
    simp [answerOf, Outcome.ofSignals, hs, hvis]

/-- The record of the accepted events makes no difference to a trace. -/
theorem map_answerOf_trace (c : Context σ) (fuel : Nat) (root : Path) (v : Visited) (s : σ) :
    (trace c fuel root v s).map answerOf =
      (outcome c fuel root v s).map fun o => (o.visited, o.result) := by
  cases hr : trace c fuel root v s with
  | some r =>
      obtain ⟨n, l, b, ht, hend⟩ := exists_traceTo hr
      obtain ⟨r', hr', hperf⟩ := trace_performs ht hend
      cases hr.symm.trans hr'
      rw [outcome_eq_some_iff.2 ⟨n, l, b, ht, hend, rfl⟩, Option.map_some,
        answerOf_eq (by simpa using ht.visited_eq) hperf, Outcome.ofSignals_append_note]
      rfl
  | none =>
      cases ho : outcome c fuel root v s with
      | none => rfl
      | some o =>
          obtain ⟨n, l, b, ht, hend, -⟩ := outcome_eq_some_iff.1 ho
          obtain ⟨r, hr', -⟩ := trace_performs ht hend
          cases hr.symm.trans hr'

/-- A sink that never refuses gets everything, and the trace ends when the last file is left. -/
theorem outcome_eq_some_iff_of_neverRefuses (hs : c.sink.NeverRefuses s) :
    outcome c fuel root v s = some o ↔
      ∃ n l b, TraceTo c.files c.maxDepth root v n l b ∧ b.stack = [] ∧ n < fuel ∧
        o = ⟨events l, b.visited, .ok b.tally⟩ := by
  have hof {n : Nat} {l : List Signal} {b : Position}
      (ht : TraceTo c.files c.maxDepth root v n l b) :
      Outcome.ofSignals c.sink s v l b = ⟨events l, b.visited, .ok b.tally⟩ := by
    rw [Outcome.ofSignals, Sink.accepted_of_ok (hs l), hs l, ht.visited_eq]
  rw [outcome_eq_some_iff]
  constructor
  · rintro ⟨n, l, b, ht, ⟨hb, hn⟩ | ⟨hl, -⟩, rfl⟩
    · exact ⟨n, l, b, ht, hb, hn, hof ht⟩
    · exact absurd (hs l) hl
  · rintro ⟨n, l, b, ht, hb, hn, rfl⟩
    exact ⟨n, l, b, ht, .inl ⟨hb, hn⟩, (hof ht).symm⟩

theorem Outcome.exists_ok {o : Outcome} (h : o.result.isOk = true) : ∃ t, o.result = .ok t := by
  cases hres : o.result with
  | error cause => rw [hres] at h; cases h
  | ok t => exact ⟨t, rfl⟩

/-- A trace that gives totals has left the last file, and its sink has got everything. -/
theorem exists_traceTo_of_ok {t : Tally} (h : outcome c fuel root v s = some o)
    (ht : o.result = .ok t) :
    ∃ n l b, TraceTo c.files c.maxDepth root v n l b ∧ b.stack = [] ∧
      o.events = events l ∧ o.visited = b.visited ∧ t = b.tally := by
  obtain ⟨n, l, b, htrace, hend, rfl⟩ := outcome_eq_some_iff.1 h
  cases hs : (c.sink.feed s l).2 with
  | some cause => simp [Outcome.ofSignals, hs] at ht
  | none =>
      have hacc : c.sink.accepted s l = events l := Sink.accepted_of_ok hs
      have htally : b.tally = t := by simpa [Outcome.ofSignals, hs] using ht
      rcases hend with ⟨hb, -⟩ | ⟨hrefused, -⟩
      · refine ⟨n, l, b, htrace, hb, hacc, ?_, htally.symm⟩
        rw [htrace.visited_eq, ← hacc]
        rfl
      · exact absurd hs hrefused

end Outcomes

/-! ## A refused event -/

/-- A trace whose sink refuses its `n`-th event, compared with the same trace when nothing is
refused.  If there are as many events, the trace ends with the reason of the refusal, and the
events before it are accepted; if not, there is no difference.  Either way the visited paths are
those from before and those of the accepted `enter` events. -/
theorem outcome_of_refusesAt {c : Context σ} {s : σ} (hs : c.sink.NeverRefuses s)
    {k : Sink τ} {t : τ} {n : Nat} (hn : 1 ≤ n) (hk : k.RefusesAt t n)
    {fuel : Nat} {root : Path} {v : Visited} {o : Outcome}
    (h : outcome c fuel root v s = some o) :
    ∃ o', outcome ⟨c.files, k, c.maxDepth⟩ fuel root v t = some o' ∧
      (n ≤ o.events.length → o'.events = o.events.take (n - 1) ∧
        ∃ e cause, o.events[n - 1]? = some e ∧ k.RefusesAfter t o'.events e cause ∧
          o'.result = .error cause) ∧
      (o.events.length < n → o'.events = o.events ∧ o'.result = o.result) ∧
      ∀ q, o'.visited.contains q = true ↔
        v.contains q = true ∨
          ∃ p, .enter p ∈ o'.events ∧ p.normalize.components = q.components := by
  obtain ⟨n, rfl⟩ : ∃ m, n = m + 1 := ⟨n - 1, by omega⟩
  obtain ⟨steps, l, b, ht, hb, hsteps, rfl⟩ := (outcome_eq_some_iff_of_neverRefuses hs).1 h
  refine ⟨.ofSignals k t v l b, outcome_eq_some_iff.2 ⟨steps, l, b, ht, .inl ⟨hb, hsteps⟩, rfl⟩,
    fun hle => ?_, fun hlt => ?_, fun q => Visited.contains_entered v _ q⟩
  · obtain ⟨hrefused, hacc⟩ := hk.feed_of_le hle
    obtain ⟨cause, hcause⟩ := Option.ne_none_iff_exists'.1 hrefused
    obtain ⟨e, es, hl, hafter⟩ := Sink.exists_refusesAfter hcause
    refine ⟨hacc, e, cause, ?_, hafter, by simp [Outcome.ofSignals, hcause]⟩
    have hlen : (k.accepted t l).length = n := by
      rw [hacc, List.length_take, Nat.min_eq_left (Nat.le_of_succ_le hle)]
    show (events l)[n]? = some e
    rw [hl, ← hlen, List.getElem?_append_right (Nat.le_refl _), Nat.sub_self,
      List.getElem?_cons_zero]
  · have hnone : (k.feed t l).2 = none := hk.feed_of_lt hlt
    exact ⟨Sink.accepted_of_ok hnone, by simp [Outcome.ofSignals, hnone]⟩

/-- Two files that include each other.  The second one also includes a file that is missing, and
cannot be read to its end. -/
def mutualFiles : FileSystem := fun p =>
  if p.normalize = .ofText "m".toList then .ok [.bytes (Utf8.encode "#include \"h\"\n".toList)]
  else if p.normalize = .ofText "h".toList then
    .ok [.bytes (Utf8.encode "#include \"m\"\n#include \"x\"\n".toList), .fault (.system 5)]
  else .error (.system 2)

/-- The third event enters the second file, and it is refused. -/
theorem outcome_of_refusesAt_third :
    ∃ o o', outcome ⟨mutualFiles, Journal.sink, none⟩ 20 (.ofText "./m".toList) .empty (.empty none)
        = some o
      ∧ outcome ⟨mutualFiles, Journal.sink, none⟩ 20 (.ofText "./m".toList) .empty
        (.empty (some 2)) = some o'
      ∧ 3 ≤ o.events.length ∧ o'.events = o.events.take 2 ∧ ∃ cause, o'.result = .error cause := by
  have hmap : (outcome ⟨mutualFiles, Journal.sink, none⟩ 20 (.ofText "./m".toList) .empty
      (.empty none)).map (·.events.length) = some 11 := by decide +kernel
  obtain ⟨o, ho, hlen⟩ := Option.map_eq_some_iff.1 hmap
  obtain ⟨o', ho', hcut, -, -⟩ := outcome_of_refusesAt (Journal.neverRefuses_of_unlimited rfl)
    (by decide) (Journal.refusesAt_empty 2) ho
  obtain ⟨hes, e, cause, -, -, hres⟩ := hcut (by omega)
  exact ⟨o, o', ho, ho', by omega, hes, cause, hres⟩

end Walk

end IncludeTrace
