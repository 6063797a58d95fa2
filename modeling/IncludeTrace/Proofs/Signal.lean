import IncludeTrace.Sink

/-!
# What a sink is fed

A walk hands events and notes to its sink, one after the other, and takes nothing
back but a refusal.  So a walk can be told apart from its sink: the walk makes a
list of *signals*, and the sink is fed with them up to the first event it
refuses (`Sink.feed`).  The events before that one are the *accepted* ones.  They
are always the beginning of the events in the list (`Sink.accepted_prefix`).

`Sink.kept` is a sink with a record of what it accepted.  It refuses what the sink
refuses, so the record changes nothing (`Sink.feed_kept`).
-/

namespace IncludeTrace

/-- One thing a walk hands to its sink. -/
inductive Signal where
  /-- An event, which may be refused. -/
  | event (e : Event)
  /-- A note. -/
  | note (n : Note)

namespace Signal

/-- The event a signal carries. -/
def event? : Signal → Option Event
  | .event e => some e
  | .note _ => none

/-- The events among some signals. -/
def events (l : List Signal) : List Event := l.filterMap event?

@[simp] theorem events_nil : events [] = [] := rfl

@[simp] theorem events_event (e : Event) (l : List Signal) :
    events (.event e :: l) = e :: events l := rfl

@[simp] theorem events_note (n : Note) (l : List Signal) : events (.note n :: l) = events l := rfl

@[simp] theorem events_append (l l' : List Signal) : events (l ++ l') = events l ++ events l' :=
  List.filterMap_append

@[simp] theorem events_map_event (es : List Event) : events (es.map .event) = es := by
  induction es with
  | nil => rfl
  | cons e es ih => rw [List.map_cons, events_event, ih]

end Signal

namespace Sink

open Signal (events)

variable {σ : Type}

/-! ## Feeding -/

/-- What a sink remembers after some signals, or after the first event among them that it
refuses, and why it refuses it. -/
def feed (k : Sink σ) : σ → List Signal → σ × Option Cause
  | s, [] => (s, none)
  | s, .note n :: l => k.feed (k.note s n) l
  | s, .event e :: l =>
      match k.accept s e with
      | (s, none) => k.feed s l
      | (s, some cause) => (s, some cause)

/-- The events among some signals that a sink accepts before it refuses one. -/
def accepted (k : Sink σ) : σ → List Signal → List Event
  | _, [] => []
  | s, .note n :: l => k.accepted (k.note s n) l
  | s, .event e :: l =>
      match k.accept s e with
      | (s, none) => e :: k.accepted s l
      | (_, some _) => []

variable {k : Sink σ} {s s' : σ} {cause : Cause} {l : List Signal}

theorem feed_append (k : Sink σ) (s : σ) (l l' : List Signal) :
    k.feed s (l ++ l') =
      match k.feed s l with
      | (s', none) => k.feed s' l'
      | (s', some cause) => (s', some cause) := by
  fun_induction feed k s l with
  | case1 s => rfl
  | case2 s n l ih => exact ih
  | case3 s e l s₁ ha ih =>
      rw [List.cons_append, feed, ha]
      exact ih
  | case4 s e l s₁ c ha => rw [List.cons_append, feed, ha]

/-- A sink that accepted all of some signals goes on from there. -/
theorem feed_append_ok (h : k.feed s l = (s', none)) (l' : List Signal) :
    k.feed s (l ++ l') = k.feed s' l' := by
  rw [feed_append, h]

/-- A sink that refused an event hears nothing more. -/
theorem feed_append_refused (h : k.feed s l = (s', some cause)) (l' : List Signal) :
    k.feed s (l ++ l') = (s', some cause) := by
  rw [feed_append, h]

/-- Without a refusal every event is accepted. -/
theorem accepted_of_ok (h : (k.feed s l).2 = none) : k.accepted s l = events l := by
  fun_induction feed k s l with
  | case1 s => rfl
  | case2 s n l ih => exact ih h
  | case3 s e l s₁ ha ih =>
      rw [accepted, ha]
      exact congrArg (e :: ·) (ih h)
  | case4 s e l s₁ c ha => simp at h

theorem accepted_append (k : Sink σ) (s : σ) (l l' : List Signal) :
    k.accepted s (l ++ l') =
      k.accepted s l ++
        match k.feed s l with
        | (s', none) => k.accepted s' l'
        | (_, some _) => [] := by
  fun_induction feed k s l with
  | case1 s => rfl
  | case2 s n l ih => exact ih
  | case3 s e l s₁ ha ih =>
      rw [List.cons_append, accepted, accepted, ha]
      exact congrArg (e :: ·) ih
  | case4 s e l s₁ c ha => rw [List.cons_append, accepted, accepted, ha, List.append_nil]

theorem accepted_append_ok (h : k.feed s l = (s', none)) (l' : List Signal) :
    k.accepted s (l ++ l') = events l ++ k.accepted s' l' := by
  rw [accepted_append, h, accepted_of_ok (by rw [h])]

theorem accepted_append_refused (h : k.feed s l = (s', some cause)) (l' : List Signal) :
    k.accepted s (l ++ l') = k.accepted s l := by
  rw [accepted_append, h, List.append_nil]

/-- What is accepted is the beginning of what was to be told. -/
theorem accepted_prefix (k : Sink σ) (s : σ) (l : List Signal) : k.accepted s l <+: events l := by
  fun_induction accepted k s l with
  | case1 s => exact List.nil_prefix
  | case2 s n l ih => exact ih
  | case3 s e l s₁ ha ih => exact List.cons_prefix_cons.2 ⟨rfl, ih⟩
  | case4 s e l s₁ c ha => exact List.nil_prefix

/-! ## A record of the accepted events -/

/-- A sink with a record of the events it accepted, oldest first. -/
def kept (k : Sink σ) : Sink (List Event × σ) where
  accept := fun (es, s) e =>
    match k.accept s e with
    | (s, none) => ((es ++ [e], s), none)
    | (s, some cause) => ((es, s), some cause)
  note := fun (es, s) n => (es, k.note s n)

/-- The record of a sink holds what it accepted and changes nothing else. -/
theorem feed_kept (k : Sink σ) (es : List Event) (s : σ) (l : List Signal) :
    k.kept.feed (es, s) l =
      ((es ++ k.accepted s l, (k.feed s l).1), (k.feed s l).2) := by
  fun_induction feed k s l generalizing es with
  | case1 s => simp [feed, accepted]
  | case2 s n l ih => exact ih es
  | case3 s e l s₁ ha ih =>
      have hkept : k.kept.accept (es, s) e = ((es ++ [e], s₁), none) := by simp [kept, ha]
      rw [feed, hkept, accepted, ha]
      simpa using ih (es ++ [e])
  | case4 s e l s₁ c ha =>
      have hkept : k.kept.accept (es, s) e = ((es, s₁), some c) := by simp [kept, ha]
      rw [feed, hkept, accepted, ha]
      simp

theorem accepted_kept (k : Sink σ) (es : List Event) (s : σ) (l : List Signal) :
    k.kept.accepted (es, s) l = k.accepted s l := by
  fun_induction accepted k s l generalizing es with
  | case1 s => rfl
  | case2 s n l ih => exact ih es
  | case3 s e l s₁ ha ih =>
      have hkept : k.kept.accept (es, s) e = ((es ++ [e], s₁), none) := by simp [kept, ha]
      rw [accepted, hkept]
      exact congrArg (e :: ·) (ih (es ++ [e]))
  | case4 s e l s₁ c ha =>
      have hkept : k.kept.accept (es, s) e = ((es, s₁), some c) := by simp [kept, ha]
      rw [accepted, hkept]

/-! ## When a sink refuses -/

/-- The sink accepts whatever it is given from now on. -/
def NeverRefuses (k : Sink σ) (s : σ) : Prop := ∀ l, (k.feed s l).2 = none

/-- The sink accepts all events before the `n`-th from now on, which is counted from one, and
refuses the `n`-th. -/
def RefusesAt (k : Sink σ) (s : σ) (n : Nat) : Prop :=
  ∀ l, (events l).length + 1 = n → ∃ s', k.feed s l = (s', none) ∧ ∀ e, (k.accept s' e).2 ≠ none

/-- The sink accepts the events `es` from now on, with notes between them, and then refuses `e`
for the reason `cause`. -/
def RefusesAfter (k : Sink σ) (s : σ) (es : List Event) (e : Event) (cause : Cause) : Prop :=
  ∃ l s', events l = es ∧ k.feed s l = (s', none) ∧ (k.accept s' e).2 = some cause

/-- The reason of a refusal is the one that was given for the event after the accepted ones. -/
theorem exists_refusesAfter (h : (k.feed s l).2 = some cause) :
    ∃ e es, events l = k.accepted s l ++ e :: es ∧ k.RefusesAfter s (k.accepted s l) e cause := by
  fun_induction feed k s l with
  | case1 s => simp at h
  | case2 s n l ih =>
      obtain ⟨e, es, hl, l₁, s', hl₁, hs', he⟩ := ih h
      exact ⟨e, es, hl, .note n :: l₁, s', hl₁, hs', he⟩
  | case3 s e₁ l s₁ ha ih =>
      obtain ⟨e, es, hl, l₁, s', hl₁, hs', he⟩ := ih h
      refine ⟨e, es, ?_, .event e₁ :: l₁, s', ?_, ?_, he⟩
      · rw [Signal.events_event, hl, accepted, ha, List.cons_append]
      · rw [Signal.events_event, hl₁, accepted, ha]
      · rw [feed, ha]
        exact hs'
  | case4 s e l s₁ c ha =>
      refine ⟨e, events l, ?_, [], s, ?_, rfl, by rw [ha]; exact h⟩
      · rw [accepted, ha, Signal.events_event, List.nil_append]
      · rw [accepted, ha, Signal.events_nil]

theorem RefusesAt.note {n : Nat} (h : k.RefusesAt s n) (m : Note) : k.RefusesAt (k.note s m) n :=
  fun l hl => h (.note m :: l) hl

/-- The first of several events is accepted, and then there is one less to accept. -/
theorem RefusesAt.event {n : Nat} (h : k.RefusesAt s (n + 2)) (e : Event) :
    ∃ s', k.accept s e = (s', none) ∧ k.RefusesAt s' (n + 1) := by
  have hstep (l : List Signal) (hl : (events l).length + 1 = n + 1) :
      ∃ s', k.feed s (.event e :: l) = (s', none) ∧ ∀ e, (k.accept s' e).2 ≠ none :=
    h (.event e :: l) (by simpa using hl)
  cases ha : k.accept s e with
  | mk s₁ answer =>
      cases answer with
      | none =>
          refine ⟨s₁, rfl, fun l hl => ?_⟩
          simpa [feed, ha] using hstep l hl
      | some cause =>
          -- A list with the right number of events shows that this one is accepted.
          obtain ⟨s', hs', -⟩ := hstep ((List.replicate n e).map .event)
            (by rw [Signal.events_map_event, List.length_replicate])
          simp [feed, ha] at hs'

/-- Fewer events than the refused one is away are accepted without exception. -/
theorem RefusesAt.feed_of_lt {n : Nat} (h : k.RefusesAt s n) (hn : (events l).length < n) :
    (k.feed s l).2 = none := by
  induction l generalizing s n with
  | nil => rfl
  | cons i l ih =>
      cases i with
      | note m => exact ih (h.note m) hn
      | event e =>
          obtain ⟨n, rfl⟩ : ∃ m, n = m + 2 := ⟨n - 2, by simp at hn; omega⟩
          obtain ⟨s', hs', h'⟩ := h.event e
          simpa [feed, hs'] using ih h' (by simpa using hn)

/-- With enough events, those before the refused one are accepted and no other. -/
theorem RefusesAt.feed_of_le {n : Nat} (h : k.RefusesAt s (n + 1))
    (hn : n + 1 ≤ (events l).length) :
    (k.feed s l).2 ≠ none ∧ k.accepted s l = (events l).take n := by
  induction l generalizing s n with
  | nil => simp at hn
  | cons i l ih =>
      cases i with
      | note m => exact ih (h.note m) hn
      | event e =>
          cases n with
          | zero =>
              obtain ⟨s', hs', hrefuse⟩ := h [] rfl
              cases hs'
              cases ha : k.accept s e with
              | mk s₁ answer =>
                  cases answer with
                  | none => exact absurd (by rw [ha]) (hrefuse e)
                  | some cause => simp [feed, accepted, ha]
          | succ n =>
              obtain ⟨s', hs', h'⟩ := h.event e
              simpa [feed, accepted, hs'] using ih h' (by simpa using hn)

end Sink

namespace Journal

/-- A journal that has room for some events takes as many and keeps the rest of its room. -/
theorem feed_room {j : Journal} {n : Nat} {l : List Signal} (h : j.acceptable = some n)
    (hl : (Signal.events l).length ≤ n) :
    ∃ j', sink.feed j l = (j', none) ∧ j'.acceptable = some (n - (Signal.events l).length) := by
  induction l generalizing j n with
  | nil => exact ⟨j, rfl, by simpa using h⟩
  | cons i l ih =>
      cases i with
      | note m => exact ih (j := j.note m) h hl
      | event e =>
          obtain ⟨n, rfl⟩ : ∃ m, n = m + 1 := ⟨n - 1, by simp at hl; omega⟩
          have ha : sink.accept j e =
              ({ j with events := j.events ++ [e], acceptable := some n }, none) := by
            simp [sink, accept, h]
          rw [Sink.feed, ha]
          obtain ⟨j', hj', hroom⟩ :=
            ih (j := { j with events := j.events ++ [e], acceptable := some n }) rfl
              (by simpa using hl)
          exact ⟨j', hj', by simpa using hroom⟩

/-- A journal that has room for `n` events refuses the next one. -/
theorem refusesAt_empty (n : Nat) : sink.RefusesAt (empty (some n)) (n + 1) := by
  intro l hl
  have hlen : (Signal.events l).length = n := by omega
  obtain ⟨j', hj', hroom⟩ := feed_room (j := empty (some n)) rfl (Nat.le_of_eq hlen)
  refine ⟨j', hj', fun e => ?_⟩
  rw [hlen, Nat.sub_self] at hroom
  simp [sink, accept, hroom]

/-- A journal without a limit takes everything. -/
theorem neverRefuses_of_unlimited {j : Journal} (h : j.acceptable = none) :
    sink.NeverRefuses j := by
  intro l
  induction l generalizing j with
  | nil => rfl
  | cons i l ih =>
      cases i with
      | note m => exact ih (j := j.note m) h
      | event e =>
          have ha : sink.accept j e = ({ j with events := j.events ++ [e] }, none) := by
            simp [sink, accept, h]
          rw [Sink.feed, ha]
          exact ih h

end Journal

end IncludeTrace
