import IncludeTrace.Proofs.Signal
import IncludeTrace.Walk

/-!
# The moves of a walk

A walk without its sink is a *position*: the visited paths, the totals and the
stack.  `Enters` and `Move` say what entering a path and one step do to a
position, and which signals they make, when nothing is refused.  They have one
rule for each thing that can happen, and every later fact about walks is derived
from these rules.

`Moves` and `TraceTo` put the steps of a run and of a trace together.  The visited
paths at the end are those at the beginning and those that were entered, in the
order of the events.
-/

namespace IncludeTrace

/-! ## Visited paths -/

namespace Visited

/-- The visited paths after an event. -/
def record (v : Visited) : Event → Visited
  | .enter p => v.insert p.normalize
  | _ => v

/-- The visited paths after some events. -/
def entered (v : Visited) (es : List Event) : Visited := es.foldl record v

@[simp] theorem entered_nil (v : Visited) : v.entered [] = v := rfl

@[simp] theorem entered_cons (v : Visited) (e : Event) (es : List Event) :
    v.entered (e :: es) = (v.record e).entered es := rfl

@[simp] theorem entered_append (v : Visited) (es es' : List Event) :
    v.entered (es ++ es') = (v.entered es).entered es' :=
  List.foldl_append

@[simp] theorem record_enter (v : Visited) (p : Path) :
    v.record (.enter p) = v.insert p.normalize := rfl

@[simp] theorem record_found (v : Visited) (p : Path) (d : Located) :
    v.record (.found p d) = v := rfl

@[simp] theorem record_failed (v : Visited) (p : Path) (stage : Stage) (cause : Cause) :
    v.record (.failed p stage cause) = v := rfl

@[simp] theorem record_close (v : Visited) (p : Path) : v.record (.close p) = v := rfl

theorem insert_of_contains {v : Visited} {p : Path} (h : v.contains p = true) :
    v.insert p = v := by
  simp [insert, containsThenInsert, h]

theorem paths_insert_of_not_contains {v : Visited} {p : Path} (h : v.contains p = false) :
    (v.insert p).paths = v.paths ++ [p] := by
  simp [insert, containsThenInsert, h]

theorem containsThenInsert_eq (v : Visited) (p : Path) :
    v.containsThenInsert p = (v.contains p, v.insert p) := by
  rw [← containsThenInsert_fst, ← containsThenInsert_snd]

/-- After some events the paths are there that were there, and the normal forms of those that
were entered. -/
theorem contains_entered (v : Visited) (es : List Event) (q : Path) :
    (v.entered es).contains q = true ↔
      v.contains q = true ∨ ∃ p, .enter p ∈ es ∧ p.normalize.components = q.components := by
  induction es generalizing v with
  | nil => simp
  | cons e es ih =>
      rw [entered_cons, ih]
      cases e with
      | enter p => simp [contains_insert, or_assoc]
      | found p d => simp
      | failed p stage cause => simp
      | close p => simp

end Visited

/-! ## Positions -/

/-- The events that are left for a file without pending directives. -/
def OpenFile.closing (p : Path) (fault : Option Cause) : List Event :=
  fault.toList.map (.failed p .reading) ++ [.close p]

namespace Walk

/-- A walk without its sink. -/
structure Position where
  /-- The visited paths. -/
  visited : Visited
  /-- The totals so far. -/
  tally : Tally
  /-- The files the walk is in, the deepest first. -/
  stack : List OpenFile

/-- The position a trace begins with. -/
def Position.init (v : Visited) : Position := ⟨v, {}, []⟩

/-- A position together with what a sink remembers. -/
def Position.walk {σ : Type} (b : Position) (s : σ) : Walk σ := ⟨s, b.visited, b.tally, b.stack⟩

/-- To enter a path at a depth: what it tells and where it leads. -/
inductive Enters (files : FileSystem) (p : Path) (depth : Nat) (b : Position) :
    List Signal → Position → Prop where
  /-- The path was visited before. -/
  | again : b.visited.contains p.normalize = true →
      Enters files p depth b [.event (.enter p), .note (.alreadyVisited p)]
        ⟨b.visited, b.tally.duplicate, b.stack⟩
  /-- The path cannot be opened. -/
  | missing {cause : Cause} : b.visited.contains p.normalize = false → files p = .error cause →
      Enters files p depth b
        [.event (.enter p), .note (.cannotOpen p cause), .event (.failed p .opening cause)]
        ⟨b.visited.insert p.normalize, b.tally.count (.failed p .opening cause), b.stack⟩
  /-- The path is opened. -/
  | opened {deliveries : List Delivery} : b.visited.contains p.normalize = false →
      files p = .ok deliveries →
      Enters files p depth b
        [.event (.enter p), .note (.scanned p (.ofDeliveries deliveries))]
        ⟨b.visited.insert p.normalize, b.tally.opened depth,
          ⟨p, (Scan.ofDeliveries deliveries).directives, (Scan.ofDeliveries deliveries).fault,
            depth⟩ :: b.stack⟩

/-- One step: what it tells and where it leads. -/
inductive Move (files : FileSystem) (limit : Option Nat) :
    Position → List Signal → Position → Prop where
  /-- The file on top is closed. -/
  | leave {v : Visited} {t : Tally} {p : Path} {fault : Option Cause} {depth : Nat}
      {rest : List OpenFile} :
      Move files limit ⟨v, t, ⟨p, [], fault, depth⟩ :: rest⟩
        ((OpenFile.closing p fault).map .event)
        ⟨v, (OpenFile.closing p fault).foldl Tally.count t, rest⟩
  /-- A directive is not followed. -/
  | skip {v : Visited} {t : Tally} {p : Path} {d : Located} {ds : List Located}
      {fault : Option Cause} {depth : Nat} {rest : List OpenFile} :
      d.directive.isFollowed = false →
      Move files limit ⟨v, t, ⟨p, d :: ds, fault, depth⟩ :: rest⟩ [.event (.found p d)]
        ⟨v, t.count (.found p d), ⟨p, ds, fault, depth⟩ :: rest⟩
  /-- A target is too deep. -/
  | limited {v : Visited} {t : Tally} {p : Path} {d : Located} {ds : List Located}
      {fault : Option Cause} {depth : Nat} {rest : List OpenFile} :
      d.directive.isFollowed = true → limit.any (· ≤ depth) = true →
      Move files limit ⟨v, t, ⟨p, d :: ds, fault, depth⟩ :: rest⟩
        [.event (.found p d), .note (.depthLimit (p.resolve d.directive.target))]
        ⟨v, (t.count (.found p d)).limited, ⟨p, ds, fault, depth⟩ :: rest⟩
  /-- A target is entered. -/
  | follow {v : Visited} {t : Tally} {p : Path} {d : Located} {ds : List Located}
      {fault : Option Cause} {depth : Nat} {rest : List OpenFile} {l : List Signal}
      {b : Position} :
      d.directive.isFollowed = true → limit.any (· ≤ depth) = false →
      Enters files (p.resolve d.directive.target) (depth + 1)
        ⟨v, t.count (.found p d), ⟨p, ds, fault, depth⟩ :: rest⟩ l b →
      Move files limit ⟨v, t, ⟨p, d :: ds, fault, depth⟩ :: rest⟩ (.event (.found p d) :: l) b

/-- A number of steps. -/
inductive Moves (files : FileSystem) (limit : Option Nat) :
    Nat → Position → List Signal → Position → Prop where
  | refl {b : Position} : Moves files limit 0 b [] b
  | head {n : Nat} {b b' b'' : Position} {l l' : List Signal} :
      Move files limit b l b' → Moves files limit n b' l' b'' →
      Moves files limit (n + 1) b (l ++ l') b''

/-- A trace of a root up to a number of steps. -/
inductive TraceTo (files : FileSystem) (limit : Option Nat) (root : Path) (v : Visited) (n : Nat) :
    List Signal → Position → Prop where
  | intro {b b' : Position} {l l' : List Signal} :
      Enters files root 0 (.init v) l b → Moves files limit n b l' b' →
      TraceTo files limit root v n (.note (.traceStarts root) :: (l ++ l')) b'

section Relations

variable {files : FileSystem} {limit : Option Nat} {p : Path} {depth : Nat}
  {b b' b'' : Position} {l l' : List Signal} {n m : Nat}

/-- Every path can be entered. -/
theorem exists_enters (files : FileSystem) (p : Path) (depth : Nat) (b : Position) :
    ∃ l b', Enters files p depth b l b' := by
  cases hv : b.visited.contains p.normalize with
  | true => exact ⟨_, _, .again hv⟩
  | false =>
      cases hf : files p with
      | error cause => exact ⟨_, _, .missing hv hf⟩
      | ok deliveries => exact ⟨_, _, .opened hv hf⟩

/-- There is a step as long as the walk is in a file. -/
theorem exists_move (files : FileSystem) (limit : Option Nat) (h : b.stack ≠ []) :
    ∃ l b', Move files limit b l b' := by
  obtain ⟨v, t, stack⟩ := b
  cases stack with
  | nil => exact absurd rfl h
  | cons f rest =>
      obtain ⟨p, pending, fault, depth⟩ := f
      cases pending with
      | nil => exact ⟨_, _, .leave⟩
      | cons d ds =>
          cases hd : d.directive.isFollowed with
          | false => exact ⟨_, _, .skip hd⟩
          | true =>
              cases hl : limit.any (· ≤ depth) with
              | true => exact ⟨_, _, .limited hd hl⟩
              | false =>
                  obtain ⟨l, b', he⟩ := exists_enters files (p.resolve d.directive.target)
                    (depth + 1) ⟨v, t.count (.found p d), ⟨p, ds, fault, depth⟩ :: rest⟩
                  exact ⟨_, _, .follow hd hl he⟩

theorem Moves.single (h : Move files limit b l b') : Moves files limit 1 b l b' := by
  simpa using Moves.head h .refl

theorem Moves.trans (h : Moves files limit n b l b') (h' : Moves files limit m b' l' b'') :
    Moves files limit (n + m) b (l ++ l') b'' := by
  induction h with
  | refl => simpa using h'
  | @head n b₁ b₂ b₃ l₁ l₂ hm _ ih =>
      have := Moves.head hm (ih h')
      rwa [← List.append_assoc, Nat.add_right_comm] at this

/-- What every step preserves, a number of steps preserve.  It may be about the events so far. -/
theorem Moves.invariant {I : List Event → Position → Prop}
    (step : ∀ es b l b', Move files limit b l b' → I es b → I (es ++ Signal.events l) b')
    {es : List Event} (h : Moves files limit n b l b') (hb : I es b) :
    I (es ++ Signal.events l) b' := by
  induction h generalizing es with
  | refl => simpa using hb
  | head hm _ ih =>
      rw [Signal.events_append, ← List.append_assoc]
      exact ih (step _ _ _ _ hm hb)

/-- The visited paths after entering a path are those the events account for. -/
theorem Enters.visited_eq (h : Enters files p depth b l b') :
    b'.visited = b.visited.entered (Signal.events l) := by
  cases h with
  | again hv => simp [Visited.insert_of_contains hv]
  | missing hv hf => simp
  | opened hv hf => simp

theorem entered_closing (v : Visited) (p : Path) (fault : Option Cause) :
    v.entered (OpenFile.closing p fault) = v := by
  cases fault <;> rfl

theorem Move.visited_eq (h : Move files limit b l b') :
    b'.visited = b.visited.entered (Signal.events l) := by
  cases h with
  | leave => simp [entered_closing]
  | skip hd => simp
  | limited hd hl => simp
  | follow hd hl he => simpa using he.visited_eq

theorem Moves.visited_eq (h : Moves files limit n b l b') :
    b'.visited = b.visited.entered (Signal.events l) := by
  induction h with
  | refl => rfl
  | head hm _ ih => rw [ih, hm.visited_eq, Signal.events_append, Visited.entered_append]

theorem TraceTo.visited_eq {root : Path} {v : Visited}
    (h : TraceTo files limit root v n l b) : b.visited = v.entered (Signal.events l) := by
  cases h with
  | intro he hm =>
      rw [hm.visited_eq, he.visited_eq]
      simp [Position.init]

end Relations

end Walk

end IncludeTrace
