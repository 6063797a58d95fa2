import IncludeTrace.Command.Run
import IncludeTrace.Proofs.Reach
import IncludeTrace.Proofs.Totals
import Mathlib.Data.Set.Card

/-!
# The exit code

A run ends with zero or one, if nothing goes wrong with its output, and the number
says whether the trace met a failure.  The failures of a trace come in the order
of the walk, and a file that is referred to again does not fail again.  But what
they come to depends on no order.  Without a limit each file that is reached and
cannot be opened, or cannot be read to its end, fails exactly once, and no other
file fails (`TraceTo.mem_failedKeys_iff`, `TraceTo.nodup_failedKeys`).

The first part of this module is about output that cannot fail.
-/

namespace IncludeTrace

/-! ## Output that never fails -/

namespace Outlet

/-- There is room for everything, and every flush succeeds. -/
structure Unfailing (o : Outlet) : Prop where
  room : o.room = none
  flushes : o.flushes = none

theorem Unfailing.write {o : Outlet} (h : o.Unfailing) (b : Bytes) :
    (o.write b).1.Unfailing ∧ (o.write b).2 = none := by
  obtain ⟨pieces, room, full, flushes⟩ := o
  obtain ⟨rfl, rfl⟩ := h
  exact ⟨⟨rfl, rfl⟩, rfl⟩

theorem Unfailing.put {o : Outlet} (h : o.Unfailing) (b : Bytes) :
    (o.put b).1.Unfailing ∧ (o.put b).2 = none := by
  obtain ⟨pieces, room, full, flushes⟩ := o
  obtain ⟨rfl, rfl⟩ := h
  exact ⟨⟨rfl, rfl⟩, rfl⟩

end Outlet

namespace Console

/-- Neither outlet ever fails. -/
structure Unfailing (c : Console) : Prop where
  out : c.out.Unfailing
  err : c.err.Unfailing

variable {c : Console}

theorem Unfailing.emit (h : c.Unfailing) (b : Option Bytes) :
    (c.emit b).1.Unfailing ∧ (c.emit b).2 = none := by
  cases b with
  | none => exact ⟨h, rfl⟩
  | some b => exact ⟨⟨(h.out.put b).1, h.err⟩, (h.out.put b).2⟩

theorem Unfailing.accept (h : c.Unfailing) (e : Event) :
    (c.accept e).1.Unfailing ∧ (c.accept e).2 = none := by
  cases e with
  | enter p => exact h.emit _
  | found p d => exact h.emit _
  | close p => exact h.emit _
  | failed p stage cause =>
      -- The message goes to the second outlet first.
      have hput := h.err.put (Utf8.encode (Event.failureMessage p stage cause ++ ['\n']))
      rcases herr : c.err.put (Utf8.encode (Event.failureMessage p stage cause ++ ['\n']))
        with ⟨err, answer⟩
      rw [herr] at hput
      obtain ⟨hunfailing, rfl⟩ : err.Unfailing ∧ answer = none := hput
      have hconsole : Unfailing { c with err := err } := ⟨h.out, hunfailing⟩
      simp only [Console.accept, herr]
      exact hconsole.emit _

theorem Unfailing.note (h : c.Unfailing) (n : Note) : (c.note n).Unfailing := by
  refine ⟨h.out, ?_⟩
  rw [Console.note]
  split
  · exact (h.err.write _).1
  · exact h.err

theorem Unfailing.notes (h : c.Unfailing) (ns : List Note) :
    (ns.foldl Console.note c).Unfailing := by
  induction ns generalizing c with
  | nil => exact h
  | cons n ns ih => exact ih (h.note n)

theorem Unfailing.feed (h : c.Unfailing) (l : List Signal) :
    (sink.feed c l).1.Unfailing ∧ (sink.feed c l).2 = none := by
  induction l generalizing c with
  | nil => exact ⟨h, rfl⟩
  | cons i l ih =>
      cases i with
      | note n => exact ih (h.note n)
      | event e =>
          have haccept := h.accept e
          rcases ha : c.accept e with ⟨c', answer⟩
          rw [ha] at haccept
          obtain ⟨hc', rfl⟩ : c'.Unfailing ∧ answer = none := haccept
          have hsink : sink.accept c e = (c', none) := ha
          rw [Sink.feed, hsink]
          exact ih hc'

end Console

/-! ## The files that fail -/

/-- Whether a path can be opened and what it opens can be read to the end. -/
def FileSystem.isIntact (files : FileSystem) (p : Path) : Bool :=
  match files p with
  | .error _ => false
  | .ok deliveries => (Scan.ofDeliveries deliveries).fault.isNone

namespace Walk

open Signal (events)

/-- The files that are reached from a root and fail. -/
def failing (files : FileSystem) (root : Path) (v : Visited) : Set Path :=
  {k | Reached files root v k ∧ files.isIntact (spelling root k) = false}

/-- Whether an event is a failure of the file `k`. -/
def failsAt (k : Path) (e : Event) : Bool := e.isFailure && decide (e.path.normalize = k)

/-- The files that failed, in the order of the events. -/
def failedKeys (es : List Event) : List Path := (es.filter Event.isFailure).map (·.path.normalize)

section Failing

variable {files : FileSystem} {root k : Path} {v : Visited} {n : Nat} {l : List Signal}
  {b : Position} {es : List Event}

theorem count_failedKeys (k : Path) (es : List Event) :
    (failedKeys es).count k = es.countP (failsAt k) := by
  rw [failedKeys, List.count, List.countP_map, List.countP_filter]
  refine List.countP_congr fun e _ => ?_
  simp [failsAt, and_comm]

theorem tells_of_failsAt (k : Path) (e : Event) (h : failsAt k e = true) : e.tells k = true := by
  cases e with
  | failed p stage cause => exact h
  | enter p => cases h
  | found p d => cases h
  | close p => cases h

/-- A script has one failure, or none if the file is intact. -/
theorem countP_failsAt_script (files : FileSystem) (p : Path) :
    (script files p).countP (failsAt p.normalize) = (!files.isIntact p).toNat := by
  unfold script FileSystem.isIntact
  cases files p with
  | error cause => simp [failsAt, Event.path]
  | ok deliveries =>
      have hfound : ((Scan.ofDeliveries deliveries).directives.map (Event.found p)).countP
          (failsAt p.normalize) = 0 := by
        simp [List.countP_map, failsAt, Function.comp_def]
      cases hfault : (Scan.ofDeliveries deliveries).fault <;>
        simp [hfound, hfault, OpenFile.closing, failsAt, Event.path]

/-- A file that is reached fails once, or not at all if it is intact. -/
theorem TraceTo.count_failedKeys_of_reached (ht : TraceTo files none root v n l b)
    (hb : b.stack = []) (hk : Reached files root v k) :
    (failedKeys (events l)).count k = (!files.isIntact (spelling root k)).toNat := by
  have haccount : Accounted files v (events l) [] := hb ▸ ht.tracks.accounted
  have hopen := ht.linked.openedAs?_of_reached haccount hk
  obtain ⟨-, -, hkey⟩ := openedAs?_eq_some hopen
  have htold : told k (events l) = script files (spelling root k) := by
    rw [haccount.told_eq k, hopen, Option.elim_some]
  have hscript := countP_failsAt_script files (spelling root k)
  rw [hkey, ← htold, countP_told (tells_of_failsAt k)] at hscript
  rw [count_failedKeys, hscript]

/-- No other file fails. -/
theorem TraceTo.count_failedKeys_of_not_reached (ht : TraceTo files none root v n l b)
    (hb : b.stack = []) (hk : ¬ Reached files root v k) : (failedKeys (events l)).count k = 0 := by
  have haccount : Accounted files v (events l) [] := hb ▸ ht.tracks.accounted
  have hopen : openedAs? v k (events l) = none := by
    rw [Option.eq_none_iff_forall_ne_some]
    exact fun p hp => hk ((ht.linked.exists_openedAs?_iff_reached haccount).1 ⟨p, hp⟩)
  have htold : told k (events l) = [] := by rw [haccount.told_eq k, hopen, Option.elim_none]
  rw [count_failedKeys, ← countP_told (tells_of_failsAt k), htold, List.countP_nil]

theorem TraceTo.mem_failedKeys_iff (ht : TraceTo files none root v n l b) (hb : b.stack = []) :
    k ∈ failedKeys (events l) ↔ k ∈ failing files root v := by
  rw [← List.count_pos_iff]
  by_cases hk : Reached files root v k
  · rw [ht.count_failedKeys_of_reached hb hk]
    cases hi : files.isIntact (spelling root k) <;> simp [failing, hk, hi]
  · rw [ht.count_failedKeys_of_not_reached hb hk]
    simp [failing, hk]

theorem TraceTo.nodup_failedKeys (ht : TraceTo files none root v n l b) (hb : b.stack = []) :
    (failedKeys (events l)).Nodup := by
  rw [List.nodup_iff_count_le_one]
  intro k
  by_cases hk : Reached files root v k
  · rw [ht.count_failedKeys_of_reached hb hk]
    exact Bool.toNat_le _
  · rw [ht.count_failedKeys_of_not_reached hb hk]
    exact Nat.zero_le 1

/-- There are as many failures as files that fail. -/
theorem TraceTo.encard_failing (ht : TraceTo files none root v n l b) (hb : b.stack = []) :
    (failing files root v).encard = (events l).countP Event.isFailure := by
  have hset : failing files root v = ((failedKeys (events l)).toFinset : Set Path) := by
    ext k
    rw [List.coe_toFinset, Set.mem_ofPred_eq, ht.mem_failedKeys_iff hb]
  rw [hset, Set.encard_coe_eq_coe_finsetCard, List.toFinset_card_of_nodup (ht.nodup_failedKeys hb),
    failedKeys, List.length_map, List.countP_eq_length_filter]

end Failing

theorem failing_eq_empty_iff {files : FileSystem} {root : Path} {v : Visited} :
    failing files root v = ∅ ↔
      ∀ k, Reached files root v k → files.isIntact (spelling root k) = true := by
  simp [failing, Set.eq_empty_iff_forall_notMem]

end Walk

/-! ## What comes of a run -/

namespace Command

variable {files : FileSystem} {fuel : Nat} {s : Settings} {console : Console} {e : Ending}
  {t : Tally}

/-- The totals that come of a complete trace are the totals of the trace. -/
theorem eq_tally_of_conclude {w : Walk Console} (h : (conclude s w).result = .ok t) :
    t = w.tally := by
  simp only [conclude] at h
  split at h
  · split at h
    · exact (Except.ok.inj h).symm
    · cases h
  · exact (Except.ok.inj h).symm

theorem conclude_of_unfailing {w : Walk Console} (h : w.sink.Unfailing) :
    (conclude s w).result = .ok w.tally := by
  have hput := ((h.notes (visitedNotes w.visited)).err.put (Utf8.encode w.tally.report)).2
  simp only [conclude]
  split
  · split
    · rfl
    · rename_i hfail
      rw [hfail] at hput
      cases hput
  · rfl

/-- A run that gives totals has traced the file to the end. -/
theorem exists_traceTo_of_run (h : run files fuel s console = some e) (ht : e.result = .ok t) :
    ∃ n l b, Walk.TraceTo files s.maxDepth s.file .empty n l b ∧ b.stack = [] ∧ t = b.tally := by
  rw [run] at h
  rcases hheader : console.writeHeader with ⟨console', _ | cause⟩
  · simp only [hheader] at h
    cases htrace : Walk.trace (context files s) fuel s.file .empty console' with
    | none => simp [htrace] at h
    | some r =>
        cases r with
        | error stop =>
            simp only [htrace, Option.some.injEq] at h
            subst h
            cases ht
        | ok w =>
            simp only [htrace, Option.some.injEq] at h
            subst h
            have hanswer := Walk.map_answerOf_trace (context files s) fuel s.file .empty console'
            rw [htrace, Option.map_some] at hanswer
            obtain ⟨o, ho, heq⟩ := Option.map_eq_some_iff.1 hanswer.symm
            have hresult : o.result = .ok t := by
              rw [eq_tally_of_conclude ht]
              exact congrArg Prod.snd heq
            obtain ⟨n, l, b, hto, hb, -, -, htally⟩ := Walk.exists_traceTo_of_ok ho hresult
            exact ⟨n, l, b, hto, hb, htally⟩
  · simp only [hheader, Option.some.injEq] at h
    subst h
    cases ht

/-- A run whose output never fails gives totals. -/
theorem exists_tally_of_unfailing (h : run files fuel s console = some e)
    (hc : console.Unfailing) : ∃ t, e.result = .ok t := by
  have hemit := hc.emit console.format.header?
  rw [run] at h
  rcases hheader : console.writeHeader with ⟨console', answer⟩
  obtain ⟨hc', rfl⟩ : console'.Unfailing ∧ answer = none := by
    rw [Console.writeHeader] at hheader
    rwa [hheader] at hemit
  simp only [hheader] at h
  cases htrace : Walk.trace (context files s) fuel s.file .empty console' with
  | none => simp [htrace] at h
  | some r =>
      obtain ⟨n, l, b, hto, hend⟩ := Walk.exists_traceTo htrace
      obtain ⟨r', hr', hperf⟩ := Walk.trace_performs hto hend
      cases htrace.symm.trans hr'
      obtain ⟨hsink, hnone⟩ := hc'.feed (l ++ [.note (.traceComplete b.tally)])
      have hok := hperf.eq_ok (Prod.ext rfl hnone)
      rw [htrace, hok] at h
      cases h
      exact ⟨_, conclude_of_unfailing hsink⟩

/-- The paths that are included from a root when every path is its own file. -/
inductive Included (files : FileSystem) (root : Path) : Path → Prop where
  | root : Included files root root
  | step {p : Path} {d : Located} : Included files root p → d ∈ files.directivesAt p →
      d.directive.isFollowed = true → Included files root (p.resolve d.directive.target)

/-- The exit code of a run without a limit whose output does not fail is zero or one.  It is zero
if every file that is reached can be opened and read to its end.  Conversely, if it is zero, every
file that is reached can, as long as the files that fail are not too many for the word they are
counted with.  A target with the normal form of the root is the root, and the root is opened by
the path that was given. -/
theorem exit_code_of_run (h : run files fuel s console = some e) (hlimit : s.maxDepth = none)
    (hout : console.Unfailing ∨ ∃ t, e.result = .ok t) :
    (e.exit.code = 0 ∨ e.exit.code = 1)
      ∧ ((∀ k, Walk.Reached files s.file .empty k →
          files.isIntact (Walk.spelling s.file k) = true) → e.exit.code = 0)
      ∧ ((Walk.failing files s.file .empty).encard < 2 ^ 64 → e.exit.code = 0 →
        ∀ k, Walk.Reached files s.file .empty k →
          files.isIntact (Walk.spelling s.file k) = true) := by
  obtain ⟨t, ht⟩ : ∃ t, e.result = .ok t := hout.elim (exists_tally_of_unfailing h) id
  obtain ⟨n, l, b, hto, hb, rfl⟩ := exists_traceTo_of_run h ht
  rw [hlimit] at hto
  have hcard := hto.encard_failing hb
  have herrors := hto.counted.errors
  have hexit : e.exit = .ofTally b.tally := by rw [Ending.exit, ht]
  rw [hexit, Exit.ofTally, Tally.isClean, herrors, ← Walk.failing_eq_empty_iff,
    ← Set.encard_eq_zero, hcard]
  generalize (Signal.events l).countP Event.isFailure = m
  refine ⟨?_, ?_, ?_⟩
  · split
    · exact .inl rfl
    · exact .inr rfl
  · intro hm
    obtain rfl : m = 0 := by exact_mod_cast hm
    rfl
  · intro hm hcode
    have hlt : m < 2 ^ 64 := by exact_mod_cast hm
    split at hcode
    · rename_i hzero
      have hnat : (UInt64.ofNat m).toNat = 0 := by rw [eq_of_beq hzero]; rfl
      rw [UInt64.toNat_ofNat_of_lt' hlt] at hnat
      exact_mod_cast hnat
    · cases hcode

/-! ## A root by way of a link -/

/-- A file that includes its own name.  It can be opened by way of a link only: `link` leads to a
directory elsewhere, and the file is beside that directory. -/
def linkedFiles : FileSystem := fun p =>
  if p = .ofText "link/../main.c".toList then
    .ok [.bytes (Utf8.encode "#include \"main.c\"\n".toList)]
  else .error .notFound

/-- The settings that ask for that file, by way of the link. -/
def linkedSettings : Settings := ⟨.ofText "link/../main.c".toList, .text, none, false, 0⟩

/-- A console that takes everything. -/
def openConsole : Console := .fresh .text .unlimited .unlimited (.choose 0 none)

theorem openConsole_unfailing : openConsole.Unfailing := ⟨⟨rfl, rfl⟩, ⟨rfl, rfl⟩⟩

theorem linkedFiles_main : linkedFiles.isIntact (.ofText "main.c".toList) = false := by
  decide +kernel

theorem exit_code_linked :
    (run linkedFiles 10 linkedSettings openConsole).map (·.exit.code) = some 0 := by
  decide +kernel

/-- The only directive leads to the normal form of the root. -/
theorem map_resolve_linked :
    (linkedFiles.directivesAt linkedSettings.file).map
        (fun d => (d.directive.isFollowed, linkedSettings.file.resolve d.directive.target))
      = [(true, .ofText "main.c".toList)] := by
  decide +kernel

theorem linked_normalize : linkedSettings.file.normalize = .ofText "main.c".toList := by
  decide +kernel

/-- The exit code can be zero although a path that is included cannot be opened: it has the normal
form of the root, and is taken for the root. -/
theorem exit_code_zero_of_missing_path :
    ∃ e, run linkedFiles 10 linkedSettings openConsole = some e
      ∧ linkedSettings.maxDepth = none ∧ openConsole.Unfailing ∧ e.exit.code = 0
      ∧ ∃ p, Included linkedFiles linkedSettings.file p ∧ linkedFiles.isIntact p = false := by
  obtain ⟨e, he, hcode⟩ := Option.map_eq_some_iff.1 exit_code_linked
  refine ⟨e, he, rfl, openConsole_unfailing, hcode, .ofText "main.c".toList, ?_, linkedFiles_main⟩
  have hmem : (true, Path.ofText "main.c".toList) ∈
      (linkedFiles.directivesAt linkedSettings.file).map
        (fun d => (d.directive.isFollowed, linkedSettings.file.resolve d.directive.target)) := by
    rw [map_resolve_linked]
    exact List.mem_singleton_self _
  obtain ⟨d, hd, heq⟩ := List.mem_map.1 hmem
  obtain ⟨hf, htarget⟩ := Prod.mk.inj heq
  rw [← htarget]
  exact .step .root hd hf

/-- Nothing but the root is reached. -/
theorem eq_of_reached_linked {k : Path} (h : Walk.Reached linkedFiles linkedSettings.file .empty k) :
    k = linkedSettings.file.normalize := by
  induction h with
  | root hv => rfl
  | @step k d _ hd hf hv ih =>
      have hspelling : Walk.spelling linkedSettings.file k = linkedSettings.file := by
        rw [Walk.spelling, if_pos ih]
      rw [hspelling] at hd ⊢
      have hmem := List.mem_map_of_mem
        (f := fun d => (d.directive.isFollowed, linkedSettings.file.resolve d.directive.target)) hd
      rw [map_resolve_linked, List.mem_singleton] at hmem
      rw [linked_normalize]
      exact (Prod.mk.inj hmem).2

/-- One run ends with zero, and everything that it reaches is intact; another one ends with one, and
something that it reaches is not. -/
theorem exit_code_of_run_linked :
    (∀ k, Walk.Reached linkedFiles linkedSettings.file .empty k →
        linkedFiles.isIntact (Walk.spelling linkedSettings.file k) = true)
      ∧ ¬ ∀ k, Walk.Reached Walk.mutualFiles (.ofText "./m".toList) .empty k →
        Walk.mutualFiles.isIntact (Walk.spelling (.ofText "./m".toList) k) = true := by
  constructor
  · obtain ⟨e, he, hcode⟩ := Option.map_eq_some_iff.1 exit_code_linked
    refine (exit_code_of_run he rfl (.inl openConsole_unfailing)).2.2 ?_ hcode
    have hsub : Walk.failing linkedFiles linkedSettings.file .empty ⊆
        {linkedSettings.file.normalize} := fun k hk => eq_of_reached_linked hk.1
    have hone := Set.encard_le_encard hsub
    rw [Set.encard_singleton] at hone
    exact hone.trans_lt (Nat.one_lt_cast.2 (by decide : 1 < 2 ^ 64))
  · intro hintact
    have hmap : (run Walk.mutualFiles 20 ⟨.ofText "./m".toList, .text, none, false, 0⟩
        openConsole).map (·.exit.code) = some 1 := by decide +kernel
    obtain ⟨e, he, hcode⟩ := Option.map_eq_some_iff.1 hmap
    have hzero := (exit_code_of_run he rfl (.inl openConsole_unfailing)).2.1 hintact
    exact absurd (hcode.symm.trans hzero) (by decide)

end Command

end IncludeTrace
