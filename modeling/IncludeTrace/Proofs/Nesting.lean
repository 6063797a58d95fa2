import IncludeTrace.Proofs.Account
import IncludeTrace.Proofs.Totals
import Mathlib.Algebra.Group.Nat.Defs
import Mathlib.Data.List.TakeWhile

/-!
# Files inside files

A file that is opened is entered and closed, and the events between the two are
its *bracket*.  Its level is the number of brackets that enclose its own: of the
files that were entered before it and are closed after it.  A path can be entered
more than once, and a bracket begins where it is entered first.

The walk keeps the depth of a file on the stack, and the events know nothing of
it.  The two agree because brackets lie inside each other as the files do on the
stack: each was entered after all those below it (`Nested`).  And of the files
that were visited at some point, those are closed later that are on the stack then
(`Moves.closed_of_visited`).  So a file that is closed is enclosed by the files
below it, and by no others.
-/

namespace IncludeTrace

namespace Event

/-- The file an event closes. -/
@[simp] def closed? : Event → Option Path
  | .close p => some p
  | _ => none

end Event

/-- The path and the depth of an open file. -/
def OpenFile.place (f : OpenFile) : Path × Nat := (f.path, f.depth)

@[simp] theorem Tally.deepest_count (t : Tally) (e : Event) : (t.count e).deepest = t.deepest := by
  cases e with
  | enter p => rfl
  | found p d => cases hq : d.directive.quote <;> simp [Tally.count, hq]
  | failed p stage cause => rfl
  | close p => rfl

namespace Walk

open Signal (events)

/-! ## Brackets -/

/-- The files that are closed, in order. -/
def closed (es : List Event) : List Path := es.filterMap Event.closed?

/-- The events in front of the first one that enters `p`. -/
def before (p : Path) (es : List Event) : List Event := es.takeWhile (· != .enter p)

/-- The events behind the first one that closes `p`. -/
def after (p : Path) (es : List Event) : List Event := (es.dropWhile (· != .close p)).tail

/-- The number of files that enclose `p`. -/
def level (es : List Event) (p : Path) : Nat :=
  (closed (after p es)).countP fun q => decide (.enter q ∈ before p es)

/-- The greatest level of some files, and zero if there are none. -/
def deepestOf (es : List Event) (files : List Path) : Nat := (files.map (level es)).foldr max 0

section Brackets

variable {p : Path} {es es' : List Event}

@[simp] theorem closed_append (es es' : List Event) : closed (es ++ es') = closed es ++ closed es' :=
  List.filterMap_append

@[simp] theorem closed_closing (p : Path) (fault : Option Cause) :
    closed (OpenFile.closing p fault) = [p] := by
  cases fault <;> rfl

theorem mem_closed : p ∈ closed es ↔ .close p ∈ es := by
  rw [closed, List.mem_filterMap]
  constructor
  · rintro ⟨e, he, hp⟩
    cases e with
    | close q => exact Option.some.inj hp ▸ he
    | enter q => cases hp
    | found q d => cases hp
    | failed q stage cause => cases hp
  · exact fun h => ⟨_, h, rfl⟩

theorem before_append (h : .enter p ∈ es) : before p (es ++ es') = before p es := by
  induction es with
  | nil => cases h
  | cons e es ih =>
      by_cases he : e = .enter p
      · simp [before, he]
      · have hmem : .enter p ∈ es := by simpa [Ne.symm he] using h
        simpa [before, he] using ih hmem

theorem before_enter (h : .enter p ∉ es) : before p (es ++ .enter p :: es') = es := by
  have hne : ∀ e ∈ es, (e != .enter p) = true := by
    intro e he
    simpa using ne_of_mem_of_not_mem he h
  rw [before, List.takeWhile_append_of_pos hne, List.takeWhile_cons_of_neg (by simp),
    List.append_nil]

theorem enter_notMem_before (p : Path) (es : List Event) : .enter p ∉ before p es := by
  intro h
  simpa using List.mem_takeWhile_imp h

theorem mem_of_mem_before {e : Event} (h : e ∈ before p es) : e ∈ es :=
  (List.takeWhile_prefix _).subset h

theorem after_close (h : .close p ∉ es) : after p (es ++ .close p :: es') = es' := by
  have hne : ∀ e ∈ es, (e != .close p) = true := by
    intro e he
    simpa using ne_of_mem_of_not_mem he h
  rw [after, List.dropWhile_append_of_pos hne, List.dropWhile_cons_of_neg (by simp), List.tail_cons]

end Brackets

/-! ## Files on the stack -/

/-- How the files on a stack lie inside each other, according to the events that led there. -/
inductive Nested (es : List Event) : List OpenFile → Prop where
  | nil : Nested es []
  | cons {f : OpenFile} {stack : List OpenFile} : f.depth = stack.length →
      .enter f.path ∈ es → .close f.path ∉ es → (∀ g ∈ stack, .enter g.path ∈ before f.path es) →
      Nested es stack → Nested es (f :: stack)

section Nested

variable {files : FileSystem} {limit : Option Nat} {p : Path} {depth n : Nat}
  {v : Visited} {b b' : Position} {l : List Signal} {es es' : List Event} {stack : List OpenFile}
  {fault : Option Cause} {ds ds' : List Located} {f : OpenFile}

/-- Events that close no file on the stack change nothing. -/
theorem Nested.append (h : Nested es stack) (hopen : ∀ f ∈ stack, .close f.path ∉ es') :
    Nested (es ++ es') stack := by
  induction h with
  | nil => exact .nil
  | @cons f stack hdepth henter hclose hbelow _ ih =>
      refine .cons hdepth (List.mem_append_left _ henter) ?_ ?_
        (ih fun g hg => hopen g (List.mem_cons_of_mem _ hg))
      · simpa [hclose] using hopen f List.mem_cons_self
      · rwa [before_append henter]

theorem Nested.pending (h : Nested es (⟨p, ds, fault, depth⟩ :: stack)) (ds' : List Located) :
    Nested es (⟨p, ds', fault, depth⟩ :: stack) := by
  cases h with
  | cons hdepth henter hclose hbelow h => exact .cons hdepth henter hclose hbelow h

theorem Nested.found (h : Nested es (⟨p, ds, fault, depth⟩ :: stack)) (d : Located)
    (ds' : List Located) : Nested (es ++ [.found p d]) (⟨p, ds', fault, depth⟩ :: stack) :=
  (h.append (by simp)).pending ds'

theorem Nested.closing (h : Nested es (⟨p, ds, fault, depth⟩ :: stack)) (fault' : Option Cause) :
    Nested (es ++ OpenFile.closing p fault') stack := by
  cases h with
  | cons hdepth henter hclose hbelow h =>
      refine h.append fun g hg hmem => ?_
      -- A file below is not the one that is closed, since it was entered earlier.
      have hne : g.path ≠ p := by
        rintro rfl
        exact enter_notMem_before g.path es (hbelow g hg)
      cases fault' <;> simp [OpenFile.closing, hne] at hmem

theorem Nested.enter_mem (h : Nested es stack) : ∀ f ∈ stack, .enter f.path ∈ es := by
  induction h with
  | nil => simp
  | @cons f stack _ henter _ _ _ ih =>
      intro g hg
      rcases List.mem_cons.1 hg with rfl | hg
      · exact henter
      · exact ih g hg

/-- A file that is not visited yet goes on top of the stack. -/
theorem Nested.opened (h : Nested es stack) (hpath : ∀ e ∈ es, e.path ≠ p)
    (hdepth : depth = stack.length) :
    Nested (es ++ [.enter p]) (⟨p, ds, fault, depth⟩ :: stack) := by
  have henter : .enter p ∉ es := fun hmem => hpath _ hmem rfl
  have hclose : .close p ∉ es := fun hmem => hpath _ hmem rfl
  refine .cons hdepth (by simp) (by simpa using hclose) ?_ (h.append (by simp))
  rw [before_enter henter]
  exact h.enter_mem

theorem Nested.depth_eq (h : Nested es (f :: stack)) : f.depth = stack.length := by
  cases h with
  | cons hdepth _ _ _ _ => exact hdepth

/-- No event is about a path that was not visited. -/
theorem Tracks.path_ne (h : Tracks files v es b) (hv : b.visited.contains p.normalize = false) :
    ∀ e ∈ es, e.path ≠ p := by
  rw [h.visited] at hv
  obtain ⟨hnew, hnone⟩ := openedAs?_of_not_contains hv
  intro e he hp
  exact h.accounted.toldInOrder.of_openedAs?_eq_none hnew hnone e he (by rw [hp])

theorem Enters.nested (he : Enters files p depth b l b') (ht : Tracks files v es b)
    (h : Nested es b.stack) (hdepth : depth = b.stack.length) : Nested (es ++ events l) b'.stack := by
  cases he with
  | again hv => exact h.append (by simp)
  | missing hv hf => exact h.append (by simp)
  | opened hv hf => exact h.opened (ht.path_ne hv) hdepth

theorem Move.nested (hm : Move files limit b l b') (ht : Tracks files v es b)
    (h : Nested es b.stack) : Nested (es ++ events l) b'.stack := by
  cases hm with
  | leave =>
      rw [Signal.events_map_event]
      exact h.closing _
  | skip hd => exact h.found _ _
  | limited hd hl => exact h.found _ _
  | @follow _ _ p d ds _ _ _ l _ hd hl he =>
      have hnested := he.nested (ht.found _) (h.found d ds) (congrArg Nat.succ h.depth_eq)
      rwa [List.append_assoc] at hnested

/-! ## Levels and depths -/

/-- Of the files that are visited before a step, those are closed by it that leave the stack. -/
theorem Move.closed_of_visited {f : Path → Bool} (hm : Move files limit b l b')
    (hf : ∀ q, f q = true → b.visited.contains q.normalize = true) :
    (closed (events l)).filter f ++ (b'.stack.map OpenFile.path).filter f =
      (b.stack.map OpenFile.path).filter f := by
  cases hm with
  | leave => rw [Signal.events_map_event, closed_closing, ← List.filter_append]; rfl
  | skip hd => rfl
  | limited hd hl => rfl
  | @follow _ _ p d _ _ _ _ _ _ hd hl he =>
      cases he with
      | again hv => rfl
      | missing hv hf => rfl
      | opened hv hopen =>
          -- The file that goes on the stack was not visited.
          have hnew := mt (hf (Path.resolve p d.directive.target)) (by simpa using hv)
          rw [List.map_cons, List.filter_cons_of_neg hnew]
          rfl

/-- Of the files that are visited at some point, those are closed later that are on the stack, from
the top. -/
theorem Moves.closed_of_visited {f : Path → Bool} (hms : Moves files limit n b l b')
    (hend : b'.stack = []) (hf : ∀ q, f q = true → b.visited.contains q.normalize = true) :
    (closed (events l)).filter f = (b.stack.map OpenFile.path).filter f := by
  induction hms with
  | refl => rw [hend]; rfl
  | @head n b b₁ b₂ l l' hm hms ih =>
      have hlater : ∀ q, f q = true → b₁.visited.contains q.normalize = true := by
        intro q hq
        rw [hm.visited_eq, Visited.contains_entered]
        exact .inl (hf q hq)
      rw [Signal.events_append, closed_append, List.filter_append, ih hend hlater]
      exact hm.closed_of_visited hf

/-- A file that is closed is enclosed by the files below it on the stack. -/
theorem level_closing (hn : Nested es (f :: b.stack))
    (hvis : b.visited = v.entered (es ++ OpenFile.closing f.path f.fault))
    (hms : Moves files limit n b l b') (hend : b'.stack = []) :
    level (es ++ OpenFile.closing f.path f.fault ++ events l) f.path = f.depth := by
  cases hn with
  | cons hdepth henter hclose hbelow _ =>
      have hbefore : before f.path (es ++ OpenFile.closing f.path f.fault ++ events l) =
          before f.path es := by
        rw [List.append_assoc, before_append henter]
      have hafter : after f.path (es ++ OpenFile.closing f.path f.fault ++ events l) =
          events l := by
        have hnot : .close f.path ∉ es ++ f.fault.toList.map (.failed f.path .reading) := by
          simpa using hclose
        have hsplit : es ++ OpenFile.closing f.path f.fault ++ events l =
            es ++ f.fault.toList.map (.failed f.path .reading) ++ .close f.path :: events l := by
          simp [OpenFile.closing]
        rw [hsplit, after_close hnot]
      have hearlier : ∀ q, decide (.enter q ∈ before f.path es) = true →
          b.visited.contains q.normalize = true := by
        intro q hq
        rw [hvis, Visited.contains_entered]
        have hmem := mem_of_mem_before (of_decide_eq_true hq)
        exact .inr ⟨q, List.mem_append_left _ hmem, rfl⟩
      have hall : ∀ q ∈ b.stack.map OpenFile.path, decide (.enter q ∈ before f.path es) = true := by
        intro q hq
        obtain ⟨g, hg, rfl⟩ := List.mem_map.1 hq
        exact decide_eq_true (hbelow g hg)
      rw [level, hbefore, hafter, List.countP_eq_length_filter,
        hms.closed_of_visited hend hearlier, List.filter_eq_self.2 hall, List.length_map, hdepth]

/-- What a step does to the files on the stack: it closes the one on top, or leaves them where they
are, or opens one more. -/
theorem Move.places (hm : Move files limit b l b') :
    (∃ f, b.stack = f :: b'.stack ∧ events l = OpenFile.closing f.path f.fault ∧
      b'.tally.deepest = b.tally.deepest) ∨
    (closed (events l) = [] ∧ b'.stack.map OpenFile.place = b.stack.map OpenFile.place ∧
      b'.tally.deepest = b.tally.deepest) ∨
    (∃ q k, closed (events l) = [] ∧
      b'.stack.map OpenFile.place = (q, k) :: b.stack.map OpenFile.place ∧
      b'.tally.deepest = max b.tally.deepest k) := by
  cases hm with
  | @leave _ _ p fault depth _ =>
      refine .inl ⟨⟨p, [], fault, depth⟩, rfl, Signal.events_map_event _, ?_⟩
      cases fault <;> rfl
  | skip hd => exact .inr (.inl ⟨rfl, rfl, Tally.deepest_count ..⟩)
  | limited hd hl => exact .inr (.inl ⟨rfl, rfl, Tally.deepest_count ..⟩)
  | @follow _ t p d _ _ _ _ _ _ hd hl he =>
      have hcount := Tally.deepest_count t (.found p d)
      cases he with
      | again hv => exact .inr (.inl ⟨rfl, rfl, hcount⟩)
      | missing hv hf => exact .inr (.inl ⟨rfl, rfl, hcount⟩)
      | opened hv hf => exact .inr (.inr ⟨_, _, rfl, rfl, congrArg (max · _) hcount⟩)

/-- Every file on the stack is closed in the end, and its level is its depth. -/
theorem Moves.level_eq (hms : Moves files limit n b l b') (hend : b'.stack = [])
    (ht : Tracks files v es b) (hn : Nested es b.stack) :
    ∀ x ∈ b.stack.map OpenFile.place,
      x.1 ∈ closed (events l) ∧ level (es ++ events l) x.1 = x.2 := by
  induction hms generalizing es with
  | refl => simp [hend]
  | @head n b b₁ b₂ l l' hm hms ih =>
      have hrest := ih hend (hm.tracks ht) (hm.nested ht hn)
      rw [Signal.events_append, closed_append, ← List.append_assoc]
      have hlater : ∀ x ∈ b₁.stack.map OpenFile.place,
          x.1 ∈ closed (events l) ++ closed (events l') ∧
            level (es ++ events l ++ events l') x.1 = x.2 := by
        intro x hx
        exact ⟨List.mem_append_right _ (hrest x hx).1, (hrest x hx).2⟩
      rcases hm.places with ⟨f, hstack, hev, -⟩ | ⟨-, hplaces, -⟩ | ⟨q, k, -, hplaces, -⟩
      · intro x hx
        rw [hstack, List.map_cons] at hx
        rcases List.mem_cons.1 hx with rfl | hx
        · rw [hstack] at hn
          have hvis := (hm.tracks ht).visited
          rw [hev] at hvis ⊢
          exact ⟨by simp [OpenFile.place], level_closing hn hvis hms hend⟩
        · exact hlater x hx
      · rwa [← hplaces]
      · intro x hx
        exact hlater x (hplaces ▸ List.mem_cons_of_mem _ hx)

/-- The total of the depth is at least the depth of every open file. -/
def DepthsCounted (b : Position) : Prop :=
  ∀ x ∈ b.stack.map OpenFile.place, x.2 ≤ b.tally.deepest

theorem Move.depthsCounted (hm : Move files limit b l b') (h : DepthsCounted b) :
    DepthsCounted b' := by
  intro x hx
  rcases hm.places with ⟨f, hstack, -, hdeep⟩ | ⟨-, hplaces, hdeep⟩ | ⟨q, k, -, hplaces, hdeep⟩
  · rw [hdeep]
    exact h x (by rw [hstack]; exact List.mem_cons_of_mem _ hx)
  · rw [hdeep]
    exact h x (hplaces ▸ hx)
  · rw [hplaces] at hx
    rw [hdeep]
    rcases List.mem_cons.1 hx with rfl | hx
    · exact Nat.le_max_right ..
    · exact (h x hx).trans (Nat.le_max_left ..)

theorem deepestOf_cons (es : List Event) (q : Path) (qs : List Path) :
    deepestOf es (q :: qs) = max (level es q) (deepestOf es qs) := rfl

theorem le_deepestOf {q : Path} {qs : List Path} (h : q ∈ qs) : level es q ≤ deepestOf es qs := by
  induction qs with
  | nil => cases h
  | cons q' qs ih =>
      rw [deepestOf_cons]
      rcases List.mem_cons.1 h with rfl | h
      · exact Nat.le_max_left ..
      · exact (ih h).trans (Nat.le_max_right ..)

/-- The total of the depth grows to the level of the deepest file that is closed. -/
theorem Moves.deepest_eq (hms : Moves files limit n b l b') (hend : b'.stack = [])
    (ht : Tracks files v es b) (hn : Nested es b.stack) (hcounted : DepthsCounted b) :
    b'.tally.deepest =
      max b.tally.deepest (deepestOf (es ++ events l) (closed (events l))) := by
  induction hms generalizing es with
  | @refl b => exact (Nat.max_eq_left (Nat.zero_le _)).symm
  | @head n b b₁ b₂ l l' hm hms ih =>
      have hlevels := Moves.level_eq (.head hm hms) hend ht hn
      have hlevels₁ := hms.level_eq hend (hm.tracks ht) (hm.nested ht hn)
      rw [ih hend (hm.tracks ht) (hm.nested ht hn) (hm.depthsCounted hcounted)]
      rw [Signal.events_append, ← List.append_assoc] at hlevels ⊢
      rw [closed_append]
      rcases hm.places with ⟨f, hstack, hev, hdeep⟩ | ⟨hnone, -, hdeep⟩ |
        ⟨q, k, hnone, hplaces, hdeep⟩
      · -- The file on top is closed, and its depth was counted when it was opened.
        have hmem : (f.path, f.depth) ∈ b.stack.map OpenFile.place := by
          rw [hstack]
          exact List.mem_cons_self
        have hlevel : level (es ++ events l ++ events l') f.path = f.depth := (hlevels _ hmem).2
        have hle : f.depth ≤ b.tally.deepest := hcounted _ hmem
        have hclosed : closed (events l) = [f.path] := by rw [hev, closed_closing]
        rw [hdeep, hclosed, List.singleton_append, deepestOf_cons, hlevel]
        omega
      · rw [hnone, List.nil_append, hdeep]
      · -- The file that is opened is closed later, so it is among those that count.
        obtain ⟨hmem, hlevel⟩ : q ∈ closed (events l') ∧
            level (es ++ events l ++ events l') q = k :=
          hlevels₁ (q, k) (by rw [hplaces]; exact List.mem_cons_self)
        have hle : k ≤ deepestOf (es ++ events l ++ events l') (closed (events l')) :=
          hlevel ▸ le_deepestOf hmem
        rw [hdeep, hnone, List.nil_append]
        omega

end Nested

/-- The total of the depth of a trace is the level of the deepest file. -/
theorem TraceTo.deepest_eq {files : FileSystem} {limit : Option Nat} {root : Path} {v : Visited}
    {n : Nat} {l : List Signal} {b : Position} (ht : TraceTo files limit root v n l b)
    (hend : b.stack = []) : b.tally.deepest = deepestOf (events l) (closed (events l)) := by
  cases ht with
  | @intro b₁ _ l₁ l₂ he hm =>
      have htracks := he.tracks (.init files v)
      have hnested := he.nested (.init files v) .nil rfl
      have hfirst : b₁.tally.deepest = 0 ∧ closed (events l₁) = [] ∧ DepthsCounted b₁ := by
        cases he with
        | again hv => exact ⟨rfl, rfl, by simp [DepthsCounted, Position.init]⟩
        | missing hv hf => exact ⟨rfl, rfl, by simp [DepthsCounted, Position.init]⟩
        | opened hv hf =>
            exact ⟨rfl, rfl, by simp [DepthsCounted, Position.init, OpenFile.place]⟩
      obtain ⟨hzero, hnone, hcounted⟩ := hfirst
      rw [hm.deepest_eq hend htracks hnested hcounted, hzero, Nat.zero_max, Signal.events_note,
        Signal.events_append, closed_append, hnone]
      rfl

/-! ## The balance of a trace -/

/-- The totals of a trace that is complete balance its events.  Directives, failures and closed
files are counted right.  Every `enter` event is that of the root or due to a quoted directive that
is not too deep, and it is about a file that is opened, about one that was visited, or about one
that is missing.  The visited paths grow by the files that are opened or missing, and the depth is
the level of the deepest file. -/
theorem tally_balances {σ : Type} {c : Context σ} {s : σ} {fuel : Nat} {root : Path} {v : Visited}
    {o : Outcome} {t : Tally} (h : outcome c fuel root v s = some o) (ht : o.result = .ok t)
    (hfew : o.events.length < 2 ^ 64) :
    t.includesFound.toNat = o.events.countP Event.isFound
      ∧ t.includesFound.toNat = t.quoted.toNat + t.angle.toNat
      ∧ t.quoted.toNat = o.events.countP Event.isQuoted
      ∧ t.errors.toNat = o.events.countP Event.isFailure
      ∧ t.filesOpened.toNat = o.events.countP Event.isClose
      ∧ t.depthLimited ≤ t.quoted
      ∧ o.events.countP Event.isEnter = 1 + t.quoted.toNat - t.depthLimited.toNat
      ∧ o.events.countP Event.isEnter =
        t.filesOpened.toNat + t.duplicates.toNat + o.events.countP Event.isMissing
      ∧ o.visited.size = v.size + (t.filesOpened.toNat + o.events.countP Event.isMissing)
      ∧ t.deepest = deepestOf o.events (closed o.events) := by
  obtain ⟨n, l, b, htrace, hend, hevents, hvisited, rfl⟩ := exists_traceTo_of_ok h ht
  rw [hevents] at hfew ⊢
  rw [hvisited]
  obtain ⟨hfound, hquoted, hangle, herrors⟩ := htrace.counted
  obtain ⟨sums, ⟨hopened, hagain, hlimited⟩, hclosed, hentered, hfollowed, hle, hsize⟩ :=
    htrace.balanced
  have hword : ∀ k ≤ (events l).length, (UInt64.ofNat k).toNat = k := by
    intro k hk
    exact UInt64.toNat_ofNat_of_lt' (hk.trans_lt hfew)
  have hcount : ∀ f : Event → Bool,
      (UInt64.ofNat ((events l).countP f)).toNat = (events l).countP f := by
    intro f
    exact hword _ List.countP_le_length
  rw [hend, List.length_nil, Nat.add_zero] at hclosed
  have hkinds := Event.countP_isFound (events l)
  have henters : (events l).countP Event.isEnter ≤ (events l).length := List.countP_le_length
  have hquotes : (events l).countP Event.isQuoted ≤ (events l).length := List.countP_le_length
  rw [hclosed] at hopened
  have hduplicates := hword sums.again (by omega)
  have hlimits := hword sums.limited (by omega)
  rw [UInt64.le_iff_toNat_le, hfound, hquoted, hangle, herrors, hopened, hagain, hlimited, hcount,
    hcount, hcount, hcount, hcount, hduplicates, hlimits]
  refine ⟨rfl, hkinds, rfl, rfl, rfl, hle, by omega, by omega, by omega, htrace.deepest_eq hend⟩

/-- Of four `enter` events two open a file, one is about the root again and one about a file that
is missing. -/
theorem tally_balances_mutual :
    ∃ o t, outcome ⟨mutualFiles, Journal.sink, none⟩ 20 (.ofText "./m".toList) .empty (.empty none)
        = some o
      ∧ o.result = .ok t ∧ o.events.length < 2 ^ 64 ∧ o.events.countP Event.isEnter = 4
      ∧ t.quoted.toNat = 3 ∧ t.filesOpened.toNat = 2 ∧ t.duplicates.toNat = 1 ∧ t.deepest = 1 := by
  have hmap : (outcome ⟨mutualFiles, Journal.sink, none⟩ 20 (.ofText "./m".toList) .empty
      (.empty none)).map (fun o => (o.result.isOk, o.events.length,
        [Event.isEnter, Event.isQuoted, Event.isClose, Event.isMissing].map o.events.countP,
        deepestOf o.events (closed o.events)))
      = some (true, 11, [4, 3, 2, 1], 1) := by decide +kernel
  obtain ⟨o, ho, hcounts⟩ := Option.map_eq_some_iff.1 hmap
  simp only [Prod.mk.injEq, List.map_cons, List.cons.injEq] at hcounts
  obtain ⟨hok, hlen, ⟨henter, hquoted, hclose, hmissing, -⟩, hdeep⟩ := hcounts
  cases hres : o.result with
  | error cause => rw [hres] at hok; cases hok
  | ok t =>
      obtain ⟨-, -, hq, -, hf, -, -, he, -, hd⟩ :=
        tally_balances ho hres (by rw [hlen]; decide)
      exact ⟨o, t, ho, hres, by rw [hlen]; decide, henter, by omega, by omega, by omega, by omega⟩

end Walk

end IncludeTrace
