import IncludeTrace.Proofs.Outcome

/-!
# Totals and events

The totals of a trace are counted in several places: with the events, when a file
is opened, when a path turns out to be visited, and when a target is too deep.
This module says what each total comes to in terms of the events.

Directives and failures are counted event by event (`Counted`).  The other totals
hang together with the stack (`Balanced`).  A file that was opened is on the stack
or closed.  An `enter` event is about a file that was opened, about one that is
missing, or about one that was visited before.  And apart from the root, an `enter`
event is due to a quoted directive that is not too deep.

Totals are words of 64 bits, so all this holds up to a multiple of `2 ^ 64`, and
as it stands if there are fewer events.
-/

namespace IncludeTrace

namespace Event

/-- Whether an event enters a file. -/
@[simp] def isEnter : Event → Bool
  | .enter _ => true
  | _ => false

/-- Whether an event is about a directive. -/
@[simp] def isFound : Event → Bool
  | .found _ _ => true
  | _ => false

/-- Whether an event is about a directive with a quoted target. -/
@[simp] def isQuoted : Event → Bool
  | .found _ d => d.directive.quote == .quoted
  | _ => false

/-- Whether an event is about a directive with a target in angle brackets. -/
@[simp] def isAngle : Event → Bool
  | .found _ d => d.directive.quote == .angle
  | _ => false

/-- Whether an event is a failure. -/
@[simp] def isFailure : Event → Bool
  | .failed _ _ _ => true
  | _ => false

/-- Whether an event is the failure of a file to open. -/
@[simp] def isMissing : Event → Bool
  | .failed _ .opening _ => true
  | _ => false

/-- Whether an event closes a file. -/
@[simp] def isClose : Event → Bool
  | .close _ => true
  | _ => false

theorem countP_isFound (es : List Event) :
    es.countP isFound = es.countP isQuoted + es.countP isAngle := by
  induction es with
  | nil => rfl
  | cons e es ih =>
      rw [List.countP_cons, List.countP_cons, List.countP_cons, ih]
      cases e with
      | enter p => rfl
      | found p d => cases hq : d.directive.quote <;> simp [hq] <;> omega
      | failed p stage cause => rfl
      | close p => rfl

theorem countP_isQuoted_found (es : List Event) (p : Path) (d : Located) :
    (es ++ [found p d]).countP isQuoted = es.countP isQuoted + d.directive.isFollowed.toNat := by
  rw [List.countP_append, List.countP_singleton]
  exact congrArg _ (Bool.cond_eq_ite ..).symm

end Event

namespace Walk

open Signal (events)

/-! ## Directives and failures -/

/-- The totals of directives and failures are those of some events. -/
structure Counted (es : List Event) (t : Tally) : Prop where
  includesFound : t.includesFound = .ofNat (es.countP Event.isFound)
  quoted : t.quoted = .ofNat (es.countP Event.isQuoted)
  angle : t.angle = .ofNat (es.countP Event.isAngle)
  errors : t.errors = .ofNat (es.countP Event.isFailure)

section Counted

variable {files : FileSystem} {limit : Option Nat} {p root : Path} {depth n : Nat} {v : Visited}
  {b b' : Position} {l : List Signal} {es : List Event} {t : Tally}

theorem Counted.init : Counted [] {} := ⟨rfl, rfl, rfl, rfl⟩

theorem Counted.count (h : Counted es t) (e : Event) : Counted (es ++ [e]) (t.count e) := by
  obtain ⟨hfound, hquoted, hangle, herrors⟩ := h
  cases e with
  | enter p => constructor <;> simpa [Tally.count]
  | found p d =>
      cases hq : d.directive.quote with
      | quoted => constructor <;> simp [Tally.count, UInt64.ofNat_add, *]
      | angle => constructor <;> simp [Tally.count, UInt64.ofNat_add, *]
  | failed p stage cause => constructor <;> simp [Tally.count, UInt64.ofNat_add, *]
  | close p => constructor <;> simpa [Tally.count]

theorem Counted.foldl_count (h : Counted es t) (es' : List Event) :
    Counted (es ++ es') (es'.foldl Tally.count t) := by
  induction es' generalizing es t with
  | nil => simpa using h
  | cons e es' ih =>
      rw [List.append_cons]
      exact ih (h.count e)

theorem Counted.opened (h : Counted es t) (depth : Nat) : Counted es (t.opened depth) :=
  ⟨h.includesFound, h.quoted, h.angle, h.errors⟩

theorem Counted.duplicate (h : Counted es t) : Counted es t.duplicate :=
  ⟨h.includesFound, h.quoted, h.angle, h.errors⟩

theorem Counted.limited (h : Counted es t) : Counted es t.limited :=
  ⟨h.includesFound, h.quoted, h.angle, h.errors⟩

theorem Enters.counted (he : Enters files p depth b l b') (h : Counted es b.tally) :
    Counted (es ++ events l) b'.tally := by
  cases he with
  | again hv => exact (h.count (.enter p)).duplicate
  | @missing cause hv hf =>
      have := (h.count (.enter p)).count (.failed p .opening cause)
      rwa [List.append_assoc] at this
  | opened hv hf => exact (h.count (.enter p)).opened depth

theorem Move.counted (hm : Move files limit b l b') (h : Counted es b.tally) :
    Counted (es ++ events l) b'.tally := by
  cases hm with
  | @leave _ _ p fault _ _ =>
      rw [Signal.events_map_event]
      exact h.foldl_count (OpenFile.closing p fault)
  | skip hd => exact h.count _
  | limited hd hl => exact (h.count _).limited
  | @follow _ _ p d _ _ _ _ _ _ hd hl he =>
      have := he.counted (h.count (.found p d))
      rwa [List.append_assoc] at this

theorem TraceTo.counted (ht : TraceTo files limit root v n l b) : Counted (events l) b.tally := by
  cases ht with
  | intro he hm =>
      rw [Signal.events_note, Signal.events_append]
      have hfirst := he.counted Counted.init
      exact hm.invariant (I := fun es b => Counted es b.tally) (fun _ _ _ _ h₁ h => h₁.counted h)
        hfirst

end Counted

/-! ## Files -/

/-- The totals that events alone do not give, as numbers. -/
structure Sums where
  opened : Nat
  again : Nat
  limited : Nat

/-- The numbers that some totals stand for. -/
structure Sums.Of (s : Sums) (t : Tally) : Prop where
  filesOpened : t.filesOpened = .ofNat s.opened
  duplicates : t.duplicates = .ofNat s.again
  depthLimited : t.depthLimited = .ofNat s.limited

/-- Files and events balance.  The paths in `v` were visited before the events, and `owed` is the
number of `enter` events that are to follow at once. -/
structure Balanced (v : Visited) (owed : Nat) (s : Sums) (es : List Event) (b : Position) :
    Prop where
  sums : s.Of b.tally
  opened : s.opened = es.countP Event.isClose + b.stack.length
  entered : es.countP Event.isEnter = s.opened + s.again + es.countP Event.isMissing
  followed : es.countP Event.isEnter + s.limited + owed = 1 + es.countP Event.isQuoted
  limited_le : s.limited ≤ es.countP Event.isQuoted
  visited : b.visited.size = v.size + (s.opened + es.countP Event.isMissing)

section Balanced

variable {files : FileSystem} {limit : Option Nat} {p root : Path} {depth n owed : Nat}
  {v v' : Visited} {b b' : Position} {l : List Signal} {es : List Event} {t : Tally} {s : Sums}
  {fault : Option Cause} {d : Located} {ds : List Located} {rest : List OpenFile}

theorem Sums.Of.count (h : s.Of t) (e : Event) : s.Of (t.count e) := by
  obtain ⟨hopened, hagain, hlimited⟩ := h
  cases e with
  | enter p => exact ⟨hopened, hagain, hlimited⟩
  | found p d =>
      cases hq : d.directive.quote with
      | quoted => constructor <;> simpa [Tally.count, hq]
      | angle => constructor <;> simpa [Tally.count, hq]
  | failed p stage cause => exact ⟨hopened, hagain, hlimited⟩
  | close p => exact ⟨hopened, hagain, hlimited⟩

theorem Sums.Of.foldl_count (h : s.Of t) (es : List Event) : s.Of (es.foldl Tally.count t) := by
  induction es generalizing t with
  | nil => exact h
  | cons e es ih => exact ih (h.count e)

theorem Sums.Of.opened (h : s.Of t) (depth : Nat) :
    Sums.Of { s with opened := s.opened + 1 } (t.opened depth) := by
  refine ⟨?_, h.duplicates, h.depthLimited⟩
  rw [Tally.opened, h.filesOpened, UInt64.ofNat_add]
  rfl

theorem Sums.Of.duplicate (h : s.Of t) : Sums.Of { s with again := s.again + 1 } t.duplicate := by
  refine ⟨h.filesOpened, ?_, h.depthLimited⟩
  rw [Tally.duplicate, h.duplicates, UInt64.ofNat_add]
  rfl

theorem Sums.Of.limited (h : s.Of t) : Sums.Of { s with limited := s.limited + 1 } t.limited := by
  refine ⟨h.filesOpened, h.duplicates, ?_⟩
  rw [Tally.limited, h.depthLimited, UInt64.ofNat_add]
  rfl

theorem size_insert_of_not_contains (h : v.contains p = false) :
    (v.insert p).size = v.size + 1 := by
  rw [Visited.size, Visited.paths_insert_of_not_contains h, List.length_append]
  rfl

theorem Balanced.init (v : Visited) : Balanced v 1 ⟨0, 0, 0⟩ [] (.init v) where
  sums := ⟨rfl, rfl, rfl⟩
  opened := rfl
  entered := rfl
  followed := rfl
  limited_le := Nat.le_refl 0
  visited := rfl

/-- Entering a path pays what is owed: the file was visited, or it is missing, or it is opened. -/
theorem Enters.balanced (he : Enters files p depth b l b') (h : Balanced v (owed + 1) s es b) :
    ∃ s', Balanced v owed s' (es ++ events l) b' := by
  obtain ⟨hsums, hopened, hentered, hfollowed, hle, hvisited⟩ := h
  cases he with
  | again hv =>
      refine ⟨{ s with again := s.again + 1 }, hsums.duplicate, ?_, ?_, ?_, ?_, ?_⟩ <;>
        simp [List.countP_cons] <;> omega
  | @missing cause hv hf =>
      have hsize := size_insert_of_not_contains hv
      refine ⟨s, hsums.count (.failed p .opening cause), ?_, ?_, ?_, ?_, ?_⟩ <;>
        simp [List.countP_cons] <;> omega
  | opened hv hf =>
      have hsize := size_insert_of_not_contains hv
      refine ⟨{ s with opened := s.opened + 1 }, hsums.opened depth, ?_, ?_, ?_, ?_, ?_⟩ <;>
        simp [List.countP_cons] <;> omega

/-- A directive that is followed owes an `enter` event. -/
theorem Balanced.found
    (h : Balanced v owed s es ⟨v', t, ⟨p, d :: ds, fault, depth⟩ :: rest⟩) :
    Balanced v (owed + d.directive.isFollowed.toNat) s (es ++ [.found p d])
      ⟨v', t.count (.found p d), ⟨p, ds, fault, depth⟩ :: rest⟩ := by
  have hquoted := Event.countP_isQuoted_found es p d
  have henter : (es ++ [Event.found p d]).countP Event.isEnter = es.countP Event.isEnter := by
    simp
  have hfollowed := h.followed
  have hle := h.limited_le
  exact {
    sums := h.sums.count (.found p d)
    opened := by simpa using h.opened
    entered := by simpa using h.entered
    followed := by omega
    limited_le := by omega
    visited := by simpa using h.visited }

/-- A target that is too deep is not entered. -/
theorem Balanced.limited (h : Balanced v (owed + 1) s es b)
    (hle : s.limited + 1 ≤ es.countP Event.isQuoted) :
    Balanced v owed { s with limited := s.limited + 1 } es
      ⟨b.visited, b.tally.limited, b.stack⟩ where
  sums := h.sums.limited
  opened := h.opened
  entered := h.entered
  followed := by
    have := h.followed
    simp only
    omega
  limited_le := hle
  visited := h.visited

theorem countP_closing (p : Path) (fault : Option Cause) :
    (OpenFile.closing p fault).countP Event.isClose = 1
      ∧ (OpenFile.closing p fault).countP Event.isEnter = 0
      ∧ (OpenFile.closing p fault).countP Event.isQuoted = 0
      ∧ (OpenFile.closing p fault).countP Event.isMissing = 0 := by
  cases fault <;> exact ⟨rfl, rfl, rfl, rfl⟩

theorem Balanced.leave (h : Balanced v owed s es ⟨v', t, ⟨p, [], fault, depth⟩ :: rest⟩) :
    Balanced v owed s (es ++ OpenFile.closing p fault)
      ⟨v', (OpenFile.closing p fault).foldl Tally.count t, rest⟩ := by
  obtain ⟨hclose, henter, hquoted, hmissing⟩ := countP_closing p fault
  have hopened : s.opened = es.countP Event.isClose + (rest.length + 1) := h.opened
  exact {
    sums := h.sums.foldl_count _
    opened := by
      show s.opened = (es ++ OpenFile.closing p fault).countP Event.isClose + rest.length
      rw [List.countP_append, hclose]
      omega
    entered := by
      rw [List.countP_append, List.countP_append, henter, hmissing]
      exact h.entered
    followed := by
      rw [List.countP_append, List.countP_append, henter, hquoted]
      exact h.followed
    limited_le := by
      rw [List.countP_append, hquoted]
      exact h.limited_le
    visited := by
      rw [List.countP_append, hmissing]
      exact h.visited }

theorem Move.balanced (hm : Move files limit b l b') (h : Balanced v 0 s es b) :
    ∃ s', Balanced v 0 s' (es ++ events l) b' := by
  cases hm with
  | leave =>
      rw [Signal.events_map_event]
      exact ⟨s, h.leave⟩
  | skip hd =>
      have hfound := h.found
      rw [hd] at hfound
      exact ⟨s, hfound⟩
  | @limited _ _ p d _ _ _ _ hd hl =>
      have hfound := h.found
      rw [hd] at hfound
      refine ⟨_, hfound.limited ?_⟩
      rw [Event.countP_isQuoted_found, hd]
      exact Nat.succ_le_succ h.limited_le
  | @follow _ _ p d _ _ _ _ l _ hd hl he =>
      have hfound := h.found
      rw [hd] at hfound
      obtain ⟨s', hs'⟩ := he.balanced hfound
      rw [List.append_assoc] at hs'
      exact ⟨s', hs'⟩

theorem TraceTo.balanced (ht : TraceTo files limit root v n l b) :
    ∃ s, Balanced v 0 s (events l) b := by
  cases ht with
  | intro he hm =>
      rw [Signal.events_note, Signal.events_append]
      have hfirst := he.balanced (.init v)
      refine hm.invariant (I := fun es b => ∃ s, Balanced v 0 s es b) ?_ hfirst
      rintro es b l b' h₁ ⟨s, hs⟩
      exact h₁.balanced hs

end Balanced

end Walk

end IncludeTrace
