import IncludeTrace.Proofs.NormalForm
import IncludeTrace.Proofs.Outcome

/-!
# The account of a file

Paths with one normal form are one file.  What a trace has to tell about a file is
its *script*: that it cannot be opened, or its directives, the failure that ended
its scan, and that it is closed.  The script depends on the path by which the file
is opened, and this is the path of the first `enter` event about the file, unless
it was visited before the trace began.

`Accounted` is the invariant of the walk.  For every file, what was told about it
and what is still due, by the files on the stack, make up its script.  The events
of other files stand in between, in any number, and do not matter.  At the end
nothing is due, so every script is told in full.  A walk that is cut off at any
event has told every script up to some point (`TraceTo.toldThroughout`).
-/

namespace IncludeTrace

namespace Event

/-- The path of an `enter` event about the file with the normal form `k`. -/
def entered? (k : Path) : Event → Option Path
  | .enter p => if p.normalize = k then some p else none
  | _ => none

/-- Whether an event says more about the file `k` than that it is entered. -/
def tells (k : Path) : Event → Bool
  | .enter _ => false
  | .found p _ | .failed p _ _ | .close p => p.normalize = k

/-- Whether an event closes the file `k`. -/
def closes (k : Path) : Event → Bool
  | .close p => p.normalize = k
  | _ => false

/-- Whether an event is a failure of the file `k`. -/
def fails (k : Path) (stage : Stage) : Event → Bool
  | .failed p stage' _ => stage' = stage && p.normalize = k
  | _ => false

/-- The directive an event reports of the file `k`. -/
def finds? (k : Path) : Event → Option Located
  | .found p d => if p.normalize = k then some d else none
  | _ => none

theorem entered?_eq_some {k p : Path} {e : Event} (h : e.entered? k = some p) :
    e = .enter p ∧ p.normalize = k := by
  cases e with
  | enter q =>
      simp only [entered?] at h
      split at h
      · cases h
        exact ⟨rfl, by assumption⟩
      · cases h
  | found q d => cases h
  | failed q stage cause => cases h
  | close q => cases h

theorem tells_of_closes (k : Path) : ∀ e : Event, e.closes k = true → e.tells k = true := by
  intro e h
  cases e <;> simp_all [closes, tells]

theorem tells_of_fails (k : Path) (stage : Stage) :
    ∀ e : Event, e.fails k stage = true → e.tells k = true := by
  intro e h
  cases e <;> simp_all [fails, tells]

theorem normalize_path_of_tells {k : Path} {e : Event} (h : e.tells k = true) :
    e.path.normalize = k := by
  cases e <;> simp_all [tells, path]

theorem normalize_path_ne {k : Path} {e : Event} (he : e.entered? k = none)
    (ht : e.tells k = false) : e.path.normalize ≠ k := by
  cases e <;> simp_all [entered?, tells, path]

end Event

/-- The directives of a file, as far as it can be read. -/
def FileSystem.directivesAt (files : FileSystem) (p : Path) : List Located :=
  match files p with
  | .error _ => []
  | .ok deliveries => (Scan.ofDeliveries deliveries).directives

/-- What is left to tell about an open file. -/
def OpenFile.remaining (f : OpenFile) : List Event :=
  f.pending.map (.found f.path) ++ closing f.path f.fault

namespace Walk

open Signal (events)

/-! ## Scripts -/

/-- All there is to tell about a file that is opened by the path `p`. -/
def script (files : FileSystem) (p : Path) : List Event :=
  match files p with
  | .error cause => [.failed p .opening cause]
  | .ok deliveries =>
      (Scan.ofDeliveries deliveries).directives.map (.found p)
        ++ OpenFile.closing p (Scan.ofDeliveries deliveries).fault

/-- What was told about the file `k`. -/
def told (k : Path) (es : List Event) : List Event := es.filter (Event.tells k)

/-- The path by which the file `k` was opened, or was to be opened, if it was not visited before
the events. -/
def openedAs? (v : Visited) (k : Path) (es : List Event) : Option Path :=
  if v.contains k then none else es.findSome? (Event.entered? k)

/-- What is still due about the file `k` according to the files on the stack. -/
def due (k : Path) (stack : List OpenFile) : List Event :=
  (stack.filter fun f => f.path.normalize = k).flatMap OpenFile.remaining

/-- For every file, what was told and what is due make up the script. -/
def Accounted (files : FileSystem) (v : Visited) (es : List Event) (stack : List OpenFile) : Prop :=
  ∀ k, told k es ++ due k stack = (openedAs? v k es).elim [] (script files)

/-- The position `b` is one to which the events `es` lead. -/
structure Tracks (files : FileSystem) (v : Visited) (es : List Event) (b : Position) : Prop where
  /-- The visited paths are those of the events. -/
  visited : b.visited = v.entered es
  /-- The stack holds what is due. -/
  accounted : Accounted files v es b.stack

/-- For every file, what was told is the beginning of the script. -/
def ToldInOrder (files : FileSystem) (v : Visited) (es : List Event) : Prop :=
  ∀ k, told k es <+: (openedAs? v k es).elim [] (script files)

/-- The same at each point from the events `es` on through the events `es'`. -/
def ToldThroughout (files : FileSystem) (v : Visited) (es es' : List Event) : Prop :=
  ∀ pre, pre <+: es' → ToldInOrder files v (es ++ pre)

section Lists

variable {files : FileSystem} {v : Visited} {k p : Path} {es es' : List Event}
  {fault : Option Cause} {depth : Nat} {ds : List Located} {stack : List OpenFile}

@[simp] theorem told_append (k : Path) (es es' : List Event) :
    told k (es ++ es') = told k es ++ told k es' :=
  List.filter_append es es'

@[simp] theorem told_enter (k p : Path) (es : List Event) :
    told k (.enter p :: es) = told k es := rfl

theorem openedAs?_append (v : Visited) (k : Path) (es es' : List Event) :
    openedAs? v k (es ++ es') = (openedAs? v k es).or (openedAs? v k es') := by
  unfold openedAs?
  split
  · rfl
  · exact List.findSome?_append

theorem openedAs?_eq_some (h : openedAs? v k es = some p) :
    v.contains k = false ∧ .enter p ∈ es ∧ p.normalize = k := by
  unfold openedAs? at h
  split at h
  · cases h
  · rename_i hv
    obtain ⟨e, he, hp⟩ := List.exists_of_findSome?_eq_some h
    obtain ⟨rfl, hk⟩ := Event.entered?_eq_some hp
    exact ⟨by simpa using hv, he, hk⟩

theorem openedAs?_enter (v : Visited) (k p : Path) :
    openedAs? v k [.enter p] =
      if v.contains k = false ∧ p.normalize = k then some p else none := by
  by_cases hk : p.normalize = k
  · cases hv : v.contains k <;> simp [openedAs?, hv, Event.entered?, hk]
  · simp [openedAs?, Event.entered?, hk]

/-- Only `enter` events say by which path a file is opened. -/
theorem openedAs?_append_of_ne_enter (h : ∀ e ∈ es', ∀ p, e ≠ .enter p) :
    openedAs? v k (es ++ es') = openedAs? v k es := by
  rw [openedAs?_append]
  have hnone : openedAs? v k es' = none := by
    cases ho : openedAs? v k es' with
    | none => rfl
    | some p => exact absurd rfl (h _ (openedAs?_eq_some ho).2.1 p)
  rw [hnone, Option.or_none]

/-- A file that is not visited after some events was not opened by them. -/
theorem openedAs?_of_not_contains (h : (v.entered es).contains k = false) :
    v.contains k = false ∧ openedAs? v k es = none := by
  have hnot := mt (Visited.contains_entered v es k).2 (by simp [h])
  refine ⟨by simpa using fun hv => hnot (.inl hv), ?_⟩
  cases ho : openedAs? v k es with
  | none => rfl
  | some q =>
      obtain ⟨-, hq, rfl⟩ := openedAs?_eq_some ho
      exact absurd (.inr ⟨q, hq, rfl⟩) hnot

theorem exists_openedAs?_iff :
    (∃ p, openedAs? v k es = some p) ↔
      v.contains k = false ∧ ∃ p, .enter p ∈ es ∧ p.normalize = k := by
  constructor
  · rintro ⟨p, hp⟩
    obtain ⟨hv, hmem, hk⟩ := openedAs?_eq_some hp
    exact ⟨hv, p, hmem, hk⟩
  · rintro ⟨hv, p, hmem, hk⟩
    have hsome : (es.findSome? (Event.entered? k)).isSome := by
      rw [List.findSome?_isSome_iff]
      exact ⟨_, hmem, by simp [Event.entered?, hk]⟩
    obtain ⟨q, hq⟩ := Option.isSome_iff_exists.1 hsome
    exact ⟨q, by simp [openedAs?, hv, hq]⟩

/-- A file that is visited after some events was visited before them or opened by them. -/
theorem openedAs?_of_contains (h : (v.entered es).contains p.normalize = true) :
    v.contains p.normalize = true ∨ ∃ q, openedAs? v p.normalize es = some q := by
  cases hv : v.contains p.normalize with
  | true => exact .inl rfl
  | false =>
      rcases (Visited.contains_entered v es p.normalize).1 h with hv' | ⟨q, hq, hkey⟩
      · exact .inl (hv ▸ hv')
      · exact .inr (exists_openedAs?_iff.2 ⟨hv, q, hq, Path.normalize_eq_iff.1 hkey⟩)

theorem due_nil (k : Path) : due k [] = [] := rfl

theorem due_cons (k : Path) (f : OpenFile) (stack : List OpenFile) :
    due k (f :: stack) =
      (if f.path.normalize = k then f.remaining else []) ++ due k stack := by
  by_cases hk : f.path.normalize = k <;> simp [due, hk]

theorem due_found (k p : Path) (d : Located) (ds : List Located) (fault : Option Cause)
    (depth : Nat) (stack : List OpenFile) :
    due k (⟨p, d :: ds, fault, depth⟩ :: stack) =
      told k [.found p d] ++ due k (⟨p, ds, fault, depth⟩ :: stack) := by
  by_cases hk : p.normalize = k <;> simp [due_cons, told, Event.tells, OpenFile.remaining, hk]

theorem due_failed (k p : Path) (cause : Cause) (depth : Nat) (stack : List OpenFile) :
    due k (⟨p, [], some cause, depth⟩ :: stack) =
      told k [.failed p .reading cause] ++ due k (⟨p, [], none, depth⟩ :: stack) := by
  by_cases hk : p.normalize = k <;>
    simp [due_cons, told, Event.tells, OpenFile.remaining, OpenFile.closing, hk]

theorem due_close (k p : Path) (depth : Nat) (stack : List OpenFile) :
    due k (⟨p, [], none, depth⟩ :: stack) = told k [.close p] ++ due k stack := by
  by_cases hk : p.normalize = k <;>
    simp [due_cons, told, Event.tells, OpenFile.remaining, OpenFile.closing, hk]

theorem countP_told {f : Event → Bool} (hf : ∀ e, f e = true → e.tells k = true)
    (es : List Event) : (told k es).countP f = es.countP f := by
  rw [told, List.countP_filter]
  refine List.countP_congr fun e _ => ?_
  simpa using hf e

theorem finds_told (k : Path) (es : List Event) :
    (told k es).filterMap (Event.finds? k) = es.filterMap (Event.finds? k) := by
  rw [told, List.filterMap_filter]
  congr 1
  funext e
  cases e <;> simp [Event.tells, Event.finds?]

end Lists

/-! ## What is in a script -/

theorem path_of_mem_script (files : FileSystem) (p : Path) :
    ∀ e ∈ script files p, e.path = p := by
  intro e he
  unfold script at he
  split at he
  · cases List.mem_singleton.1 he
    rfl
  · rcases List.mem_append.1 he with hd | hc
    · obtain ⟨d, -, rfl⟩ := List.mem_map.1 hd
      rfl
    · rcases List.mem_append.1 hc with hr | hl
      · obtain ⟨cause, -, rfl⟩ := List.mem_map.1 hr
        rfl
      · cases List.mem_singleton.1 hl
        rfl

theorem finds_script (files : FileSystem) (p : Path) :
    (script files p).filterMap (Event.finds? p.normalize) = files.directivesAt p := by
  unfold script FileSystem.directivesAt
  cases files p with
  | error cause => rfl
  | ok deliveries =>
      cases (Scan.ofDeliveries deliveries).fault <;>
        simp [OpenFile.closing, Event.finds?, List.filterMap_map, Function.comp_def]

theorem found_mem_script {files : FileSystem} {p : Path} {d : Located} :
    .found p d ∈ script files p ↔ d ∈ files.directivesAt p := by
  unfold script FileSystem.directivesAt
  cases files p with
  | error cause => simp
  | ok deliveries => simp [OpenFile.closing]

/-- A file with a directive can be opened, so it is closed. -/
theorem close_mem_script {files : FileSystem} {p : Path} {d : Located}
    (h : d ∈ files.directivesAt p) : .close p ∈ script files p := by
  unfold script
  unfold FileSystem.directivesAt at h
  cases hf : files p with
  | error cause => simp [hf] at h
  | ok deliveries => simp [OpenFile.closing]

/-- A script has one end: the file cannot be opened or it is closed. -/
theorem script_ends (files : FileSystem) (p : Path) :
    (script files p).countP (Event.closes p.normalize) = 1
        ∧ (script files p).countP (Event.fails p.normalize .opening) = 0
      ∨ (script files p).countP (Event.closes p.normalize) = 0
        ∧ (script files p).countP (Event.fails p.normalize .opening) = 1 := by
  unfold script
  cases files p with
  | error cause => right; simp [Event.closes, Event.fails]
  | ok deliveries =>
      left
      cases (Scan.ofDeliveries deliveries).fault <;>
        simp [OpenFile.closing, Event.closes, Event.fails, List.countP_map, Function.comp_def]

theorem script_reading_le (files : FileSystem) (p : Path) :
    (script files p).countP (Event.fails p.normalize .reading) ≤ 1 := by
  unfold script
  cases files p with
  | error cause => simp [Event.fails]
  | ok deliveries =>
      cases (Scan.ofDeliveries deliveries).fault <;>
        simp [OpenFile.closing, Event.fails, List.countP_map, Function.comp_def]

theorem countP_le_script {files : FileSystem} {k p : Path} {es : List Event} {f : Event → Bool}
    (h : told k es <+: script files p) (hf : ∀ e, f e = true → e.tells k = true) :
    es.countP f ≤ (script files p).countP f := by
  rw [← countP_told hf es]
  exact h.countP_le

/-- A script that is told as far as the close is told in full. -/
theorem eq_script_of_closes {files : FileSystem} {p : Path} {es : List Event}
    (h : es <+: script files p) (hc : 0 < es.countP (Event.closes p.normalize)) :
    es = script files p := by
  unfold script at h ⊢
  cases hf : files p with
  | error cause =>
      rw [hf] at h
      exact absurd (Nat.lt_of_lt_of_le hc h.countP_le) (by simp [Event.closes])
  | ok deliveries =>
      rw [hf] at h
      simp only [OpenFile.closing, ← List.append_assoc] at h ⊢
      rcases List.prefix_concat_iff.1 h with rfl | hshort
      · rfl
      · -- Before its last event a script closes nothing.
        exact absurd (Nat.lt_of_lt_of_le hc hshort.countP_le)
          (by simp [List.countP_map, Function.comp_def, Event.closes])

/-! ## What a step does to the account -/

section Steps

variable {files : FileSystem} {limit : Option Nat} {v v' : Visited} {root p : Path} {depth n : Nat}
  {es : List Event} {b b' : Position} {l : List Signal} {stack : List OpenFile}
  {fault : Option Cause} {d : Located} {ds : List Located}

theorem Accounted.init (files : FileSystem) (v : Visited) : Accounted files v [] [] := by
  intro k
  simp [told, due, openedAs?]

/-- Once nothing is due, every script is told in full. -/
theorem Accounted.told_eq (h : Accounted files v es []) (k : Path) :
    told k es = (openedAs? v k es).elim [] (script files) := by
  rw [← h k, due_nil, List.append_nil]

theorem Accounted.toldInOrder (h : Accounted files v es stack) : ToldInOrder files v es :=
  fun k => ⟨due k stack, h k⟩

/-- Nothing was told, and nothing is due, about a file that is not visited yet. -/
theorem Accounted.of_not_contains (h : Accounted files v es stack)
    (hv : (v.entered es).contains p.normalize = false) :
    told p.normalize es = [] ∧ due p.normalize stack = [] := by
  have hk := h p.normalize
  rw [(openedAs?_of_not_contains hv).2] at hk
  exact List.append_eq_nil_iff.1 hk

/-- An event is told that was due next. -/
theorem Accounted.tell {e : Event} {stack' : List OpenFile} (h : Accounted files v es stack)
    (he : ∀ p, e ≠ .enter p) (hdue : ∀ k, due k stack = told k [e] ++ due k stack') :
    Accounted files v (es ++ [e]) stack' := by
  intro k
  rw [openedAs?_append_of_ne_enter (by simpa using he), ← h k, hdue k, told_append,
    List.append_assoc]

theorem Accounted.found (h : Accounted files v es (⟨p, d :: ds, fault, depth⟩ :: stack)) :
    Accounted files v (es ++ [.found p d]) (⟨p, ds, fault, depth⟩ :: stack) :=
  h.tell (by simp) fun k => due_found k p d ds fault depth stack

theorem Accounted.failed {cause : Cause}
    (h : Accounted files v es (⟨p, [], some cause, depth⟩ :: stack)) :
    Accounted files v (es ++ [.failed p .reading cause]) (⟨p, [], none, depth⟩ :: stack) :=
  h.tell (by simp) fun k => due_failed k p cause depth stack

theorem Accounted.close (h : Accounted files v es (⟨p, [], none, depth⟩ :: stack)) :
    Accounted files v (es ++ [.close p]) stack :=
  h.tell (by simp) fun k => due_close k p depth stack

theorem Accounted.closing (h : Accounted files v es (⟨p, [], fault, depth⟩ :: stack)) :
    Accounted files v (es ++ OpenFile.closing p fault) stack := by
  cases fault with
  | none => exact h.close
  | some cause =>
      have := h.failed.close
      rwa [List.append_assoc] at this

/-- An `enter` event about a visited file changes nothing. -/
theorem Accounted.again (h : Accounted files v es stack)
    (hv : (v.entered es).contains p.normalize = true) :
    Accounted files v (es ++ [.enter p]) stack := by
  intro k
  have hopened : openedAs? v k (es ++ [.enter p]) = openedAs? v k es := by
    rw [openedAs?_append, openedAs?_enter]
    split
    · -- An earlier event entered the file, and the earlier one counts.
      rename_i hk
      obtain ⟨hnew, rfl⟩ := hk
      rcases openedAs?_of_contains hv with hold | ⟨q, hq⟩
      · rw [hnew] at hold
        cases hold
      · rw [hq, Option.some_or]
    · rw [Option.or_none]
  rw [hopened, ← h k, told_append, told_enter]
  simp [told]

/-- A file that is not visited yet is opened by the path with which it is entered. -/
theorem Accounted.first {rest : List Event} {stack' : List OpenFile}
    (h : Accounted files v es stack)
    (hv : (v.entered es).contains p.normalize = false)
    (hrest : ∀ e ∈ rest, ∀ q, e ≠ .enter q)
    (hp : told p.normalize rest ++ due p.normalize stack' = script files p)
    (hother : ∀ k, p.normalize ≠ k → told k rest ++ due k stack' = due k stack) :
    Accounted files v (es ++ (.enter p :: rest)) stack' := by
  obtain ⟨hnew, hnone⟩ := openedAs?_of_not_contains hv
  intro k
  rw [List.append_cons, openedAs?_append_of_ne_enter hrest, openedAs?_append, openedAs?_enter,
    told_append, told_append, told_enter, List.append_assoc, List.append_assoc]
  by_cases hk : p.normalize = k
  · -- Nothing was told about the file before, so its whole script is still to come.
    subst hk
    rw [(h.of_not_contains hv).1, hnone, if_pos ⟨hnew, rfl⟩]
    exact hp
  · rw [if_neg (fun hc => hk hc.2), Option.or_none, ← h k]
    exact congrArg (told k es ++ ·) (hother k hk)

/-- A file on the stack was opened by its path, and what is pending is among its directives. -/
theorem Accounted.top (h : Accounted files v es (⟨p, ds, fault, depth⟩ :: stack)) :
    openedAs? v p.normalize es = some p ∧ ∀ d ∈ ds, d ∈ files.directivesAt p := by
  have hk := h p.normalize
  rw [due_cons, if_pos rfl] at hk
  have hmem : ∀ e ∈ OpenFile.remaining ⟨p, ds, fault, depth⟩,
      e ∈ (openedAs? v p.normalize es).elim [] (script files) := by
    intro e he
    rw [← hk]
    exact List.mem_append_right _ (List.mem_append_left _ he)
  have hclose : .close p ∈ OpenFile.remaining ⟨p, ds, fault, depth⟩ := by
    simp [OpenFile.remaining, OpenFile.closing]
  cases ho : openedAs? v p.normalize es with
  | none =>
      rw [ho] at hmem
      exact absurd (hmem (.close p) hclose) List.not_mem_nil
  | some q =>
      rw [ho] at hmem
      obtain rfl : p = q := path_of_mem_script files q (.close p) (hmem _ hclose)
      refine ⟨rfl, fun d hd => found_mem_script.1 (hmem _ ?_)⟩
      exact List.mem_append_left _ (List.mem_map_of_mem hd)

theorem ToldInOrder.enter (h : ToldInOrder files v es) (p : Path) :
    ToldInOrder files v (es ++ [.enter p]) := by
  intro k
  have hk := h k
  rw [openedAs?_append, told_append, told_enter]
  cases ho : openedAs? v k es with
  | some q => simpa [told, ho] using hk
  | none =>
      rw [ho] at hk
      rw [List.prefix_nil.1 hk]
      exact List.nil_prefix

theorem ToldThroughout.nil (h : ToldInOrder files v es) : ToldThroughout files v es [] := by
  intro pre hpre
  rw [List.prefix_nil.1 hpre, List.append_nil]
  exact h

theorem ToldThroughout.cons {e : Event} {es' : List Event} (h : ToldInOrder files v es)
    (h' : ToldThroughout files v (es ++ [e]) es') : ToldThroughout files v es (e :: es') := by
  intro pre hpre
  rcases List.prefix_cons_iff.1 hpre with rfl | ⟨t, rfl, ht⟩
  · rwa [List.append_nil]
  · rw [List.append_cons]
    exact h' t ht

theorem ToldThroughout.append {es₁ es₂ : List Event} (h₁ : ToldThroughout files v es es₁)
    (h₂ : ToldThroughout files v (es ++ es₁) es₂) : ToldThroughout files v es (es₁ ++ es₂) := by
  intro pre hpre
  rcases List.prefix_or_prefix_of_prefix hpre (List.prefix_append es₁ es₂) with hle | ⟨t, rfl⟩
  · exact h₁ pre hle
  · rw [← List.append_assoc]
    exact h₂ t ((List.prefix_append_right_inj es₁).1 hpre)

/-! ## Runs -/

theorem Tracks.init (files : FileSystem) (v : Visited) : Tracks files v [] (.init v) :=
  ⟨rfl, .init files v⟩

theorem Enters.tracks (he : Enters files p depth b l b') (h : Tracks files v es b) :
    Tracks files v (es ++ events l) b' := by
  refine ⟨by rw [he.visited_eq, h.visited, Visited.entered_append], ?_⟩
  obtain ⟨hv, ha⟩ := h
  cases he with
  | again hc => exact ha.again (hv ▸ hc)
  | @missing cause hc hf =>
      show Accounted files v (es ++ [.enter p, .failed p .opening cause]) b.stack
      refine ha.first (hv ▸ hc) (by simp) ?_ ?_
      · rw [(ha.of_not_contains (hv ▸ hc)).2, script, hf]
        simp [told, Event.tells]
      · intro k hk
        simp [told, Event.tells, hk]
  | @opened deliveries hc hf =>
      show Accounted files v (es ++ [.enter p]) (⟨p, _, _, depth⟩ :: b.stack)
      refine ha.first (hv ▸ hc) (by simp) ?_ ?_
      · rw [due_cons, if_pos rfl, (ha.of_not_contains (hv ▸ hc)).2, script, hf]
        simp [told, OpenFile.remaining]
      · intro k hk
        rw [due_cons, if_neg hk]
        rfl

theorem Enters.toldThroughout (he : Enters files p depth b l b') (h : Tracks files v es b) :
    ToldThroughout files v es (events l) := by
  have hend := (he.tracks h).accounted.toldInOrder
  have hbegin := h.accounted.toldInOrder
  cases he with
  | again hc => exact .cons hbegin (.nil hend)
  | missing hc hf =>
      refine .cons hbegin (.cons (hbegin.enter p) (.nil ?_))
      simpa using hend
  | opened hc hf => exact .cons hbegin (.nil hend)

theorem Tracks.found {t : Tally}
    (h : Tracks files v es ⟨v', t, ⟨p, d :: ds, fault, depth⟩ :: stack⟩) (t' : Tally) :
    Tracks files v (es ++ [.found p d]) ⟨v', t', ⟨p, ds, fault, depth⟩ :: stack⟩ :=
  ⟨by simpa using h.visited, h.accounted.found⟩

theorem Move.tracks (hm : Move files limit b l b') (h : Tracks files v es b) :
    Tracks files v (es ++ events l) b' := by
  refine ⟨by rw [hm.visited_eq, h.visited, Visited.entered_append], ?_⟩
  cases hm with
  | leave => simpa using h.accounted.closing
  | skip hd => exact h.accounted.found
  | limited hd hl => exact h.accounted.found
  | follow hd hl he =>
      have := (he.tracks (h.found _)).accounted
      rwa [List.append_assoc] at this

theorem Move.toldThroughout (hm : Move files limit b l b') (h : Tracks files v es b) :
    ToldThroughout files v es (events l) := by
  have hbegin := h.accounted.toldInOrder
  cases hm with
  | @leave _ _ p fault _ _ =>
      have ha := h.accounted
      cases fault with
      | none => exact .cons hbegin (.nil ha.close.toldInOrder)
      | some cause =>
          exact .cons hbegin (.cons ha.failed.toldInOrder (.nil ha.failed.close.toldInOrder))
  | skip hd => exact .cons hbegin (.nil h.accounted.found.toldInOrder)
  | limited hd hl => exact .cons hbegin (.nil h.accounted.found.toldInOrder)
  | follow hd hl he => exact .cons hbegin (he.toldThroughout (h.found _))

theorem Moves.tracks (hm : Moves files limit n b l b') (h : Tracks files v es b) :
    Tracks files v (es ++ events l) b' :=
  hm.invariant (fun _ _ _ _ h₁ h => h₁.tracks h) h

theorem Moves.toldThroughout (hm : Moves files limit n b l b') (h : Tracks files v es b) :
    ToldThroughout files v es (events l) := by
  induction hm generalizing es with
  | refl => exact .nil h.accounted.toldInOrder
  | head h₁ _ ih =>
      rw [Signal.events_append]
      exact (h₁.toldThroughout h).append (ih (h₁.tracks h))

/-- A trace that ends has told everything there is to tell. -/
theorem TraceTo.tracks (ht : TraceTo files limit root v n l b) : Tracks files v (events l) b := by
  cases ht with
  | intro he hm =>
      have := hm.tracks (he.tracks (.init files v))
      rwa [List.nil_append, ← Signal.events_append] at this

/-- A trace that is cut off anywhere has told everything in order. -/
theorem TraceTo.toldThroughout (ht : TraceTo files limit root v n l b) :
    ToldThroughout files v [] (events l) := by
  cases ht with
  | intro he hm =>
      have hinit := Tracks.init files v
      rw [Signal.events_note, Signal.events_append]
      exact (he.toldThroughout hinit).append (hm.toldThroughout (he.tracks hinit))

/-- No event is about a file that is neither visited before nor opened. -/
theorem ToldInOrder.of_openedAs?_eq_none {k : Path} (h : ToldInOrder files v es)
    (hv : v.contains k = false) (ho : openedAs? v k es = none) :
    ∀ e ∈ es, e.path.normalize ≠ k := by
  intro e he
  have htold : told k es = [] := by
    have hk := h k
    rw [ho] at hk
    exact List.prefix_nil.1 hk
  refine Event.normalize_path_ne ?_ ?_
  · simp only [openedAs?, hv] at ho
    exact List.findSome?_eq_none_iff.1 ho e he
  · simpa using List.filter_eq_nil_iff.1 htold e he

/-- The first event about a file is the `enter` event by whose path it is opened. -/
theorem ToldThroughout.exists_first {k q : Path} (h : ToldThroughout files v [] es)
    (ho : openedAs? v k es = some q) :
    ∃ es₁ es₂, es = es₁ ++ .enter q :: es₂ ∧ ∀ e ∈ es₁, e.path.normalize ≠ k := by
  obtain ⟨hv, -⟩ := openedAs?_eq_some ho
  simp only [openedAs?, hv] at ho
  obtain ⟨es₁, e, es₂, rfl, he, hnone⟩ := List.findSome?_eq_some_iff.1 ho
  obtain ⟨rfl, -⟩ := Event.entered?_eq_some he
  refine ⟨es₁, es₂, rfl, (h es₁ (List.prefix_append _ _)).of_openedAs?_eq_none hv ?_⟩
  simpa [openedAs?, hv] using hnone

end Steps

end Walk

end IncludeTrace
