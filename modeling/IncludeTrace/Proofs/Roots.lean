import IncludeTrace.Proofs.HigherLimit
import IncludeTrace.Proofs.Session
import Mathlib.Data.UInt

/-!
# The order of the roots

Several roots are traced one after the other, without limits and with one set of
visited paths.  Which of the traces opens a file, and which only meets it again,
depends on the order of the roots.  What comes out in the end does not.

The files that are visited after some roots are the smallest set that has the roots
and, with a file, the targets of its directives; and what was told, apart from
`enter` events, are the scripts of these files in some order.  This is `Explored`,
and one more trace preserves it (`Explored.trace`).  It does not mention the order,
so two rows of the same roots visit the same files and tell the same number of
events of each kind.  The totals follow, since each comes from such numbers in a way
that is the same for all traces (`Derived`).
-/

namespace IncludeTrace

/-! ## Proper sets of visited paths -/

/-- The paths are normal forms, and none is there twice. -/
structure Visited.Proper (v : Visited) : Prop where
  normal : ∀ k ∈ v.paths, k.normalize = k
  nodup : v.paths.Nodup

namespace Visited.Proper

variable {v : Visited}

theorem empty : Visited.empty.Proper := ⟨fun _ h => absurd h List.not_mem_nil, List.nodup_nil⟩

theorem contains_iff (h : v.Proper) (p : Path) :
    v.contains p.normalize = true ↔ p.normalize ∈ v.paths := by
  simp only [contains, List.any_eq_true, beq_iff_eq]
  constructor
  · rintro ⟨k, hk, hkey⟩
    rw [← h.normal k hk] at hkey
    rwa [← Path.normalize_eq_iff.1 hkey, h.normal k hk]
  · exact fun hp => ⟨_, hp, rfl⟩

theorem insert (h : v.Proper) (p : Path) : (v.insert p.normalize).Proper := by
  cases hv : v.contains p.normalize with
  | true => rwa [insert_of_contains hv]
  | false =>
      have hnot : p.normalize ∉ v.paths := by
        rw [← h.contains_iff, hv]
        exact Bool.false_ne_true
      refine ⟨?_, ?_⟩
      · rw [paths_insert_of_not_contains hv]
        intro k hk
        rcases List.mem_append.1 hk with hk | hk
        · exact h.normal k hk
        · rw [List.mem_singleton.1 hk, Path.normalize_normalize]
      · rw [paths_insert_of_not_contains hv]
        exact (List.perm_append_singleton _ _).nodup_iff.2 (List.nodup_cons.2 ⟨hnot, h.nodup⟩)

theorem entered (h : v.Proper) (es : List Event) : (v.entered es).Proper := by
  induction es generalizing v with
  | nil => exact h
  | cons e es ih =>
      cases e with
      | enter p => exact ih (h.insert p)
      | found p d => exact ih h
      | failed p stage cause => exact ih h
      | close p => exact ih h

end Visited.Proper

namespace Event

theorem isEnter_of_leads {e : Event} (h : e.leads = false) : e.isEnter = false := by
  cases e with
  | enter p => cases h
  | found p d => rfl
  | failed p stage cause => rfl
  | close p => rfl

theorem tells_path {e : Event} (h : e.isEnter = false) : e.tells e.path.normalize = true := by
  cases e with
  | enter p => cases h
  | found p d => exact decide_eq_true rfl
  | failed p stage cause => exact decide_eq_true rfl
  | close p => exact decide_eq_true rfl

theorem isEnter_of_tells {e : Event} {k : Path} (h : e.tells k = true) : e.isEnter = false := by
  cases e with
  | enter p => cases h
  | found p d => rfl
  | failed p stage cause => rfl
  | close p => rfl

/-- Whether an event is the failure of a file to open or closes a file. -/
def isEnd (e : Event) : Bool := e.isMissing || e.isClose

theorem countP_isEnd (es : List Event) :
    es.countP isEnd = es.countP isMissing + es.countP isClose := by
  induction es with
  | nil => rfl
  | cons e es ih =>
      rw [List.countP_cons, List.countP_cons, List.countP_cons, ih]
      cases e with
      | enter p => rfl
      | found p d => rfl
      | failed p stage cause => cases stage <;> simp [isEnd, Nat.add_right_comm]
      | close p => simp [isEnd]; omega

end Event

namespace Walk

open Signal (events)

/-! ## Events by file -/

/-- What is told about some files, in the order of the events, is what is told about one after the
other. -/
theorem filter_tells_perm {ks : List Path} (hks : ks.Nodup) (es : List Event) :
    (es.filter fun e => ks.any fun k => e.tells k).Perm (ks.flatMap fun k => told k es) := by
  induction ks with
  | nil => simp
  | cons k ks ih =>
      obtain ⟨hk, hks⟩ := List.nodup_cons.1 hks
      have hsplit := List.filter_append_perm (Event.tells k)
        (es.filter fun e => (k :: ks).any fun k => e.tells k)
      have hfirst : (es.filter fun e => (k :: ks).any fun k => e.tells k).filter (Event.tells k) =
          told k es := by
        rw [List.filter_filter, told]
        refine List.filter_congr fun e _ => ?_
        cases he : e.tells k <;> simp [he]
      have hrest : (es.filter fun e => (k :: ks).any fun k => e.tells k).filter
          (fun e => !e.tells k) = es.filter fun e => ks.any fun k => e.tells k := by
        rw [List.filter_filter]
        refine List.filter_congr fun e _ => ?_
        cases he : e.tells k with
        | false => simp [he]
        | true =>
            -- An event tells about one file only.
            have hnone : ks.any (fun k' => e.tells k') = false := by
              rw [List.any_eq_false]
              intro k' hk' he'
              rw [← Event.normalize_path_of_tells he, Event.normalize_path_of_tells he'] at hk
              exact hk hk'
            simp [hnone]
      rw [hfirst, hrest] at hsplit
      exact hsplit.symm.trans ((ih hks).append_left _)

section Traces

variable {files : FileSystem} {root : Path} {roots : List Path} {n : Nat} {l : List Signal}
  {v : Visited} {b b' : Position} {es : List Event} {P : Path → Prop}

/-- The events of a complete trace, its `enter` events apart, are the scripts of the files it
adds. -/
theorem TraceTo.scripts_perm {added : List Path} (ht : TraceTo files none root v n l b)
    (hend : b.stack = []) (hroot : root.normalize = root) (hnodup : added.Nodup)
    (hadded : ∀ k, k ∈ added ↔ v.contains k = false ∧ ∃ p, .enter p ∈ events l ∧ p.normalize = k) :
    ((events l).filter fun e => !e.isEnter).Perm (added.flatMap (script files)) := by
  have haccount : Accounted files v (events l) [] := hend ▸ ht.tracks.accounted
  have hfiles : ((events l).filter fun e => !e.isEnter) =
      (events l).filter fun e => added.any fun k => e.tells k := by
    refine List.filter_congr fun e he => ?_
    cases hent : e.isEnter with
    | true =>
        symm
        rw [Bool.not_true, List.any_eq_false]
        intro k _ htells
        rw [Event.isEnter_of_tells htells] at hent
        cases hent
    | false =>
        symm
        rw [Bool.not_false, List.any_eq_true]
        refine ⟨e.path.normalize, (hadded _).2 ?_, Event.tells_path hent⟩
        -- What is told about a file belongs to its script, so the file was opened.
        have hmem : e ∈ told e.path.normalize (events l) :=
          List.mem_filter.2 ⟨he, Event.tells_path hent⟩
        rw [haccount.told_eq] at hmem
        cases ho : openedAs? v e.path.normalize (events l) with
        | none => rw [ho] at hmem; cases hmem
        | some q => exact exists_openedAs?_iff.1 ⟨q, ho⟩
  have htold : ∀ k ∈ added, told k (events l) = script files k := by
    intro k hk
    obtain ⟨q, hq⟩ := exists_openedAs?_iff.2 ((hadded k).1 hk)
    rw [haccount.told_eq k, hq, Option.elim_some, ← ht.spelling_eq hend hq,
      spelling_of_normal hroot]
  rw [hfiles, ← List.flatMap_congr htold]
  exact filter_tells_perm hnodup (events l)

/-! ## Explored files -/

/-- With a file, a set has the targets of its directives. -/
def Hereditary (files : FileSystem) (P : Path → Prop) : Prop :=
  ∀ k d, P k → d ∈ files.directivesAt k → d.directive.isFollowed = true →
    P (k.resolve d.directive.target)

/-- The visited paths and the events after some roots. -/
structure Explored (files : FileSystem) (roots : List Path) (v : Visited) (es : List Event) :
    Prop where
  proper : v.Proper
  /-- The roots are visited. -/
  root_mem : ∀ r ∈ roots, r ∈ v.paths
  /-- With a file, the targets of its directives are visited. -/
  hereditary : Hereditary files (· ∈ v.paths)
  /-- No other files are visited. -/
  least : ∀ P : Path → Prop, (∀ r ∈ roots, P r) → Hereditary files P → ∀ k ∈ v.paths, P k
  /-- The scripts of the visited files are told. -/
  scripts : (es.filter fun e => !e.isEnter).Perm (v.paths.flatMap (script files))

theorem Explored.init (files : FileSystem) : Explored files [] .empty [] where
  proper := .empty
  root_mem := by simp
  hereditary := fun _ _ h => absurd h List.not_mem_nil
  least := fun _ _ _ _ h => absurd h List.not_mem_nil
  scripts := .nil

/-- One more root. -/
theorem Explored.trace (h : Explored files roots v es) (ht : TraceTo files none root v n l b)
    (hend : b.stack = []) (hroot : root.normalize = root) :
    Explored files (roots ++ [root]) b.visited (es ++ events l) := by
  have hproper : b.visited.Proper := ht.visited_eq ▸ h.proper.entered (events l)
  obtain ⟨added, hpaths, hadded⟩ := paths_entered v (events l)
  rw [← ht.visited_eq] at hpaths
  have hnodup : added.Nodup := (List.nodup_append.1 (hpaths ▸ hproper.nodup)).2.1
  have hentered : ∀ p, .enter p ∈ events l → p.normalize ∈ b.visited.paths := by
    intro p hp
    rw [← hproper.contains_iff, ht.visited_eq, Visited.contains_entered]
    exact .inr ⟨p, hp, rfl⟩
  constructor
  case proper =>
    exact hproper
  case root_mem =>
    intro r hr
    rcases List.mem_append.1 hr with hr | hr
    · rw [hpaths]
      exact List.mem_append_left _ (h.root_mem r hr)
    · obtain ⟨rest, hrest⟩ := ht.events_eq
      rw [List.mem_singleton.1 hr, ← hroot]
      exact hentered root (hrest ▸ List.mem_cons_self)
  case hereditary =>
    intro k d hk hmem hd
    rw [hpaths] at hk
    rcases List.mem_append.1 hk with hk | hk
    · rw [hpaths]
      exact List.mem_append_left _ (h.hereditary k d hk hmem hd)
    · -- The trace opened the file, and so it entered all targets.
      obtain ⟨q, hq⟩ := exists_openedAs?_iff.2 ((hadded k).1 hk)
      obtain rfl : k = q := (spelling_of_normal hroot k).symm.trans (ht.spelling_eq hend hq)
      rcases ht.enter_or_at_limit hend hq hmem hd with henter | hlimit
      · rw [← Path.normalize_resolve]
        exact hentered _ henter
      · cases hlimit
  case least =>
    intro P hP hher k hk
    have hroots : ∀ r ∈ roots, P r := fun r hr => hP r (List.mem_append_left _ hr)
    rw [hpaths] at hk
    rcases List.mem_append.1 hk with hk | hk
    · exact h.least P hroots hher k hk
    · obtain ⟨-, p, hp, rfl⟩ := (hadded k).1 hk
      have hall : ∀ p, .enter p ∈ events l → p.normalize = p ∧ P p := by
        refine ht.enter_induction hend ⟨hroot, hP root (by simp)⟩ ?_
        intro p d hp _ _ hmem hd
        exact ⟨Path.normalize_resolve p _, hher p d hp.2 hmem hd⟩
      obtain ⟨hnormal, hPp⟩ := hall p hp
      rwa [hnormal]
  case scripts =>
    rw [List.filter_append, hpaths, List.flatMap_append]
    exact h.scripts.append (ht.scripts_perm hend hroot hnodup hadded)

/-- The same roots in another order lead to the same files. -/
theorem Explored.paths_perm {roots' : List Path} {v' : Visited} {es' : List Event}
    (h : Explored files roots v es) (h' : Explored files roots' v' es') (hp : roots.Perm roots') :
    v.paths.Perm v'.paths := by
  refine (List.perm_ext_iff_of_nodup h.proper.nodup h'.proper.nodup).2 fun k => ⟨?_, ?_⟩
  · exact h.least (· ∈ v'.paths) (fun r hr => h'.root_mem r (hp.subset hr)) h'.hereditary k
  · exact h'.least (· ∈ v.paths) (fun r hr => h.root_mem r (hp.symm.subset hr)) h.hereditary k

/-- The same roots in another order lead to as many events of a kind, other than `enter`
events. -/
theorem Explored.countP_eq {roots' : List Path} {v' : Visited} {es' : List Event}
    (h : Explored files roots v es) (h' : Explored files roots' v' es') (hp : roots.Perm roots')
    {f : Event → Bool} (hf : ∀ p, f (.enter p) = false) : es.countP f = es'.countP f := by
  have htold : ∀ es : List Event, (es.filter fun e => !e.isEnter).countP f = es.countP f := by
    intro es
    rw [List.countP_filter]
    refine List.countP_congr fun e _ => ?_
    cases e with
    | enter p => simp [hf p]
    | found p d => simp
    | failed p stage cause => simp
    | close p => simp
  have hscripts := (h.paths_perm h' hp).flatMap_right (script files)
  rw [← htold es, ← htold es', h.scripts.countP_eq, h'.scripts.countP_eq, hscripts.countP_eq]

/-! ## Totals -/

/-- Without a limit, every quoted directive is followed by an `enter` event. -/
theorem Move.countP_isEnter (hm : Move files none b l b') :
    (events l).countP Event.isEnter = (events l).countP Event.isQuoted := by
  cases hm with
  | @leave _ _ p fault _ _ =>
      obtain ⟨-, henter, hquoted, -⟩ := countP_closing p fault
      rw [Signal.events_map_event, henter, hquoted]
  | @skip _ _ p d _ _ _ _ hd =>
      have hquoted : Event.isQuoted (.found p d) = false := hd
      show [Event.found p d].countP Event.isEnter = [Event.found p d].countP Event.isQuoted
      rw [List.countP_singleton, List.countP_singleton, hquoted]
      rfl
  | limited hd hl => cases hl
  | @follow _ _ p d _ _ _ _ l _ hd hl he =>
      obtain ⟨quiet, hev, hquiet⟩ := he.events_eq
      have hquoted : Event.isQuoted (.found p d) = true := hd
      have hnone : quiet.countP Event.isQuoted = 0 := by
        refine List.countP_eq_zero.2 fun e he => ?_
        rw [Event.isQuoted_of_leads (hquiet e he)]
        exact Bool.false_ne_true
      have hno : quiet.countP Event.isEnter = 0 := by
        refine List.countP_eq_zero.2 fun e he => ?_
        rw [Event.isEnter_of_leads (hquiet e he)]
        exact Bool.false_ne_true
      rw [Signal.events_event, hev, List.countP_cons, List.countP_cons, List.countP_cons,
        List.countP_cons, hquoted, hnone, hno]
      rfl

theorem Moves.countP_isEnter (hms : Moves files none n b l b') :
    (events l).countP Event.isEnter = (events l).countP Event.isQuoted := by
  induction hms with
  | refl => rfl
  | head hm _ ih =>
      rw [Signal.events_append, List.countP_append, List.countP_append, hm.countP_isEnter, ih]

theorem Enters.countP_isEnter {p : Path} {depth : Nat} (he : Enters files p depth b l b') :
    (events l).countP Event.isEnter = 1 ∧ (events l).countP Event.isQuoted = 0 := by
  cases he with
  | again hv => exact ⟨rfl, rfl⟩
  | missing hv hf => exact ⟨rfl, rfl⟩
  | opened hv hf => exact ⟨rfl, rfl⟩

theorem TraceTo.countP_isEnter (ht : TraceTo files none root v n l b) :
    (events l).countP Event.isEnter = 1 + (events l).countP Event.isQuoted := by
  cases ht with
  | intro he hms =>
      obtain ⟨henter, hquoted⟩ := he.countP_isEnter
      rw [Signal.events_note, Signal.events_append, List.countP_append, List.countP_append, henter,
        hquoted, hms.countP_isEnter, Nat.zero_add]

end Traces

/-- How a total comes from the events of a trace without a limit: together with the events of one
kind it makes up a fixed number and the events of another kind. -/
structure Derived (f : Tally → UInt64) (each : Nat) (gain loss : Event → Bool) : Prop where
  gain_enter : ∀ p, gain (.enter p) = false
  loss_enter : ∀ p, loss (.enter p) = false
  balance : ∀ {files : FileSystem} {root : Path} {v : Visited} {n : Nat} {l : List Signal}
    {b : Position}, TraceTo files none root v n l b → b.stack = [] →
    ∃ m ≤ (events l).length, f b.tally = .ofNat m ∧
      m + (events l).countP loss = each + (events l).countP gain

/-- A total that is the number of the events of one kind. -/
theorem Derived.of_count {f : Tally → UInt64} {gain : Event → Bool}
    (henter : ∀ p, gain (.enter p) = false)
    (hcount : ∀ {files : FileSystem} {root : Path} {v : Visited} {n : Nat} {l : List Signal}
      {b : Position}, TraceTo files none root v n l b → b.stack = [] →
      f b.tally = .ofNat ((events l).countP gain)) :
    Derived f 0 gain fun _ => false where
  gain_enter := henter
  loss_enter := fun _ => rfl
  balance := fun ht hend => ⟨_, List.countP_le_length, hcount ht hend, by simp⟩

theorem derived_filesOpened : Derived Tally.filesOpened 0 Event.isClose fun _ => false := by
  refine .of_count (fun _ => rfl) fun ht hend => ?_
  obtain ⟨sums, hbalanced⟩ := ht.balanced
  rw [hbalanced.sums.filesOpened, hbalanced.opened, hend]
  rfl

/-- A file is entered again unless it is opened or missing, and besides the root every target of a
quoted directive is entered. -/
theorem derived_duplicates : Derived Tally.duplicates 1 Event.isQuoted Event.isEnd where
  gain_enter := fun _ => rfl
  loss_enter := fun _ => rfl
  balance := by
    intro files root v n l b ht hend
    obtain ⟨sums, hbalanced⟩ := ht.balanced
    have hopened : sums.opened = (events l).countP Event.isClose := by
      rw [hbalanced.opened, hend]
      rfl
    have hentered := hbalanced.entered
    have hle : (events l).countP Event.isEnter ≤ (events l).length := List.countP_le_length
    have hfollowed := ht.countP_isEnter
    have hends := Event.countP_isEnd (events l)
    exact ⟨sums.again, by omega, hbalanced.sums.duplicates, by omega⟩

/-- The totals that add up over several traces. -/
def summed : List (Tally → UInt64) :=
  [Tally.filesOpened, Tally.includesFound, Tally.quoted, Tally.angle, Tally.duplicates,
    Tally.errors]

theorem derived_of_mem_summed :
    ∀ f ∈ summed, ∃ each gain loss, Derived f each gain loss := by
  have hfound : Derived Tally.includesFound 0 Event.isFound fun _ => false :=
    .of_count (fun _ => rfl) fun ht _ => ht.counted.includesFound
  have hquoted : Derived Tally.quoted 0 Event.isQuoted fun _ => false :=
    .of_count (fun _ => rfl) fun ht _ => ht.counted.quoted
  have hangle : Derived Tally.angle 0 Event.isAngle fun _ => false :=
    .of_count (fun _ => rfl) fun ht _ => ht.counted.angle
  have herrors : Derived Tally.errors 0 Event.isFailure fun _ => false :=
    .of_count (fun _ => rfl) fun ht _ => ht.counted.errors
  simp only [summed, List.forall_mem_cons]
  exact ⟨⟨_, _, _, derived_filesOpened⟩, ⟨_, _, _, hfound⟩, ⟨_, _, _, hquoted⟩, ⟨_, _, _, hangle⟩,
    ⟨_, _, _, derived_duplicates⟩, ⟨_, _, _, herrors⟩, by simp⟩

/-! ## Rows of roots -/

/-- The events and the totals of the calls in a row, and the paths that are visited after them.
There are none if a call does not finish or its sink refuses an event. -/
def tallies (files : FileSystem) (fuel : Nat) :
    List Call → Visited → Option (List (List Event × Tally) × Visited)
  | [], v => some ([], v)
  | call :: calls, v => do
      let o ← outcome ⟨files, call.sink, call.maxDepth⟩ fuel call.root v call.state
      let t ← o.result.toOption
      let (rs, v') ← tallies files fuel calls o.visited
      return ((o.events, t) :: rs, v')

section Rows

variable {files : FileSystem} {fuel : Nat} {calls : List Call} {v w : Visited}
  {rs : List (List Event × Tally)} {roots : List Path} {es : List Event}

theorem tallies_cons_eq_some {call : Call}
    (h : tallies files fuel (call :: calls) v = some (rs, w)) :
    ∃ n l b rs', TraceTo files call.maxDepth call.root v n l b ∧ b.stack = []
      ∧ tallies files fuel calls b.visited = some (rs', w) ∧ rs = (events l, b.tally) :: rs' := by
  obtain ⟨o, ho, h⟩ := Option.bind_eq_some_iff.1 h
  obtain ⟨t, ht, h⟩ := Option.bind_eq_some_iff.1 h
  obtain ⟨⟨rs', w'⟩, hrest, h⟩ := Option.bind_eq_some_iff.1 h
  cases h
  cases hres : o.result with
  | error cause => rw [hres] at ht; cases ht
  | ok t' =>
      rw [hres] at ht
      cases ht
      obtain ⟨n, l, b, htrace, hend, hevents, hvisited, rfl⟩ := exists_traceTo_of_ok ho hres
      exact ⟨n, l, b, rs', htrace, hend, hvisited ▸ hrest, by rw [hevents]⟩

/-- A row of roots, after others. -/
theorem Explored.tallies (h : Explored files roots v es)
    (hrow : tallies files fuel calls v = some (rs, w))
    (hlimit : ∀ call ∈ calls, call.maxDepth = none)
    (hnormal : ∀ call ∈ calls, call.root.normalize = call.root) :
    Explored files (roots ++ calls.map Call.root) w (es ++ rs.flatMap Prod.fst) := by
  induction calls generalizing roots v es rs with
  | nil =>
      cases hrow
      simpa using h
  | cons call calls ih =>
      obtain ⟨hcall, hlimit⟩ := List.forall_mem_cons.1 hlimit
      obtain ⟨hroot, hnormal⟩ := List.forall_mem_cons.1 hnormal
      obtain ⟨n, l, b, rs', htrace, hend, hrest, rfl⟩ := tallies_cons_eq_some hrow
      rw [hcall] at htrace
      have hall := ih (h.trace htrace hend hroot) hrest hlimit hnormal
      simpa using hall

/-- What a total comes to in a row of traces, trace by trace and as a sum. -/
theorem Derived.tallies {f : Tally → UInt64} {each : Nat} {gain loss : Event → Bool}
    (hf : Derived f each gain loss) (hrow : tallies files fuel calls v = some (rs, w))
    (hlimit : ∀ call ∈ calls, call.maxDepth = none) :
    ∃ ms : List Nat, rs.map (fun r => f r.2) = ms.map .ofNat
      ∧ ((∀ r ∈ rs, r.1.length < 2 ^ 64) → rs.map (fun r => (f r.2).toNat) = ms)
      ∧ ms.sum + (rs.flatMap Prod.fst).countP loss =
        calls.length * each + (rs.flatMap Prod.fst).countP gain := by
  induction calls generalizing v rs with
  | nil =>
      cases hrow
      exact ⟨[], rfl, fun _ => rfl, by simp⟩
  | cons call calls ih =>
      obtain ⟨hcall, hlimit⟩ := List.forall_mem_cons.1 hlimit
      obtain ⟨n, l, b, rs', htrace, hend, hrest, rfl⟩ := tallies_cons_eq_some hrow
      rw [hcall] at htrace
      obtain ⟨ms, hwords, hnumbers, hsum⟩ := ih hrest hlimit
      obtain ⟨m, hle, hm, hbalance⟩ := hf.balance htrace hend
      refine ⟨m :: ms, by rw [List.map_cons, List.map_cons, hwords, hm], fun hfew => ?_, ?_⟩
      · obtain ⟨hfirst, hfew⟩ := List.forall_mem_cons.1 hfew
        rw [List.map_cons, hnumbers hfew, hm, UInt64.toNat_ofNat_of_lt' (hle.trans_lt hfirst)]
      · rw [List.sum_cons, List.flatMap_cons, List.countP_append, List.countP_append,
          List.length_cons, Nat.succ_mul]
        show m + ms.sum + ((events l).countP loss + _) = _ + each + ((events l).countP gain + _)
        omega

theorem sum_map_ofNat (ms : List Nat) :
    (ms.map UInt64.ofNat).sum = UInt64.ofNat ms.sum := by
  induction ms with
  | nil => rfl
  | cons m ms ih => rw [List.map_cons, List.sum_cons, List.sum_cons, ih, UInt64.ofNat_add]

end Rows

/-- The order of the roots makes no difference in the end.  Two rows of traces without limits, of
the same roots in some order, visit the same paths and have the same sums of totals; these are sums
of words, and if no trace has so many events that a word overflows, they are sums of numbers
too. -/
theorem tallies_of_perm_roots {files : FileSystem} {fuel fuel' : Nat} {calls calls' : List Call}
    {rs rs' : List (List Event × Tally)} {v v' : Visited}
    (hroots : (calls.map Call.root).Perm (calls'.map Call.root))
    (hnormal : ∀ root ∈ calls.map Call.root, root.normalize = root)
    (hlimit : ∀ call ∈ calls ++ calls', call.maxDepth = none)
    (h : tallies files fuel calls .empty = some (rs, v))
    (h' : tallies files fuel' calls' .empty = some (rs', v')) :
    v.paths.Perm v'.paths
      ∧ ∀ f ∈ summed,
        (rs.map fun r => f r.2).sum = (rs'.map fun r => f r.2).sum
          ∧ ((∀ r ∈ rs ++ rs', r.1.length < 2 ^ 64) →
            (rs.map fun r => (f r.2).toNat).sum = (rs'.map fun r => (f r.2).toNat).sum) := by
  obtain ⟨hlimit, hlimit'⟩ := List.forall_mem_append.1 hlimit
  have hnormal' : ∀ root ∈ calls'.map Call.root, root.normalize = root :=
    fun root hroot => hnormal root (hroots.symm.subset hroot)
  have hexplored := (Explored.init files).tallies h hlimit (List.forall_mem_map.1 hnormal)
  have hexplored' := (Explored.init files).tallies h' hlimit' (List.forall_mem_map.1 hnormal')
  simp only [List.nil_append] at hexplored hexplored'
  refine ⟨hexplored.paths_perm hexplored' hroots, fun f hf => ?_⟩
  obtain ⟨each, gain, loss, hderived⟩ := derived_of_mem_summed f hf
  obtain ⟨ms, hwords, hnumbers, hsum⟩ := hderived.tallies h hlimit
  obtain ⟨ms', hwords', hnumbers', hsum'⟩ := hderived.tallies h' hlimit'
  have hgain := hexplored.countP_eq hexplored' hroots hderived.gain_enter
  have hloss := hexplored.countP_eq hexplored' hroots hderived.loss_enter
  have hlength : calls.length = calls'.length := by simpa using hroots.length_eq
  have hsame : ms.sum = ms'.sum := by
    rw [hlength, hgain, hloss] at hsum
    omega
  refine ⟨?_, fun hfew => ?_⟩
  · rw [hwords, hwords', sum_map_ofNat, sum_map_ofNat, hsame]
  · obtain ⟨hfew, hfew'⟩ := List.forall_mem_append.1 hfew
    rw [hnumbers hfew, hnumbers' hfew', hsame]

/-- The calls that trace some roots of the mutual files in a row. -/
def mutualCalls (roots : List String) : List Call :=
  roots.map fun root => ⟨Journal.sink, .empty none, .ofText root.toList, none⟩

/-- The duplicates fall to other traces and the files are visited in another order, but there are
three duplicates each time. -/
theorem tallies_of_perm_roots_mutual :
    ∃ rs v rs' v', tallies mutualFiles 20 (mutualCalls ["x", "m", "h"]) .empty = some (rs, v)
      ∧ tallies mutualFiles 20 (mutualCalls ["h", "x", "m"]) .empty = some (rs', v')
      ∧ rs.map (·.2.duplicates) = [0, 2, 1] ∧ rs'.map (·.2.duplicates) = [1, 1, 1]
      ∧ v.paths ≠ v'.paths ∧ v.paths.Perm v'.paths
      ∧ (rs.map fun r => r.2.duplicates.toNat).sum =
        (rs'.map fun r => r.2.duplicates.toNat).sum := by
  have hmap : (tallies mutualFiles 20 (mutualCalls ["x", "m", "h"]) .empty).map
      (fun r => (r.1.map (·.2.duplicates), r.1.all (·.1.length < 12), r.2.paths)) =
      some ([0, 2, 1], true, ["x", "m", "h"].map (.ofText ·.toList)) := by decide +kernel
  have hmap' : (tallies mutualFiles 20 (mutualCalls ["h", "x", "m"]) .empty).map
      (fun r => (r.1.map (·.2.duplicates), r.1.all (·.1.length < 12), r.2.paths)) =
      some ([1, 1, 1], true, ["h", "m", "x"].map (.ofText ·.toList)) := by decide +kernel
  obtain ⟨⟨rs, v⟩, h, heq⟩ := Option.map_eq_some_iff.1 hmap
  obtain ⟨⟨rs', v'⟩, h', heq'⟩ := Option.map_eq_some_iff.1 hmap'
  simp only [Prod.mk.injEq, List.all_eq_true, decide_eq_true_eq] at heq heq'
  obtain ⟨htotals, hfew, hpaths⟩ := heq
  obtain ⟨htotals', hfew', hpaths'⟩ := heq'
  obtain ⟨hperm, hsums⟩ := tallies_of_perm_roots (by decide +kernel) (by decide +kernel)
    (by simp [mutualCalls]) h h'
  have hshort : ∀ r ∈ rs ++ rs', r.1.length < 2 ^ 64 := by
    intro r hr
    rcases List.mem_append.1 hr with hr | hr
    · exact (hfew r hr).trans (by decide)
    · exact (hfew' r hr).trans (by decide)
  refine ⟨rs, v, rs', v', h, h', htotals, htotals', ?_, hperm, ?_⟩
  · rw [hpaths, hpaths']
    decide +kernel
  · exact (hsums Tally.duplicates (by simp [summed])).2 hshort

end Walk

end IncludeTrace
