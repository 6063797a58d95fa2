import IncludeTrace.Proofs.Recursion
import Mathlib.Data.Set.Finite.List

/-!
# When a trace ends

A file has finitely many directives, so a trace goes on for ever only if files are
opened inside files without end.  A `NestingBound` excludes this.  It is a number
that depends on the depth and on the visited paths.  It never grows when a path is
visited, and it is smaller for the targets of a file than it was for the file.
A visit then has a result, once its own bound is larger than that number
(`visit_ends`).

There are two such numbers.  If finitely many paths can be opened, it is the number
of those that were not visited, since a file is visited before it is opened
(`nestingBound_unvisited`).  If there is a limit, it is the distance to the limit
(`nestingBound_limit`), and the file system does not matter.

The sink does not matter either: it can only end a trace earlier.
-/

namespace IncludeTrace

namespace Walk

open Signal (events)

/-- The paths that can be opened. -/
def openable (files : FileSystem) : Set Path := {p | ∃ deliveries, files p = .ok deliveries}

/-- A number that bounds how deep files can still be opened inside each other. -/
structure NestingBound (files : FileSystem) (limit : Option Nat) (bound : Nat → Visited → Nat) :
    Prop where
  insert_le : ∀ depth v k, bound depth (v.insert k) ≤ bound depth v
  opened_lt : ∀ depth v p, v.contains p.normalize = false → p ∈ openable files →
    limit.any (· ≤ depth) = false → bound (depth + 1) (v.insert p.normalize) < bound depth v

section Bounded

variable {files : FileSystem} {limit : Option Nat} {bound : Nat → Visited → Nat} {n m depth : Nat}
  {p : Path} {v : Visited} {g g' : Progress}

theorem NestingBound.entered_le (hb : NestingBound files limit bound) (depth : Nat) (v : Visited)
    (es : List Event) : bound depth (v.entered es) ≤ bound depth v := by
  induction es generalizing v with
  | nil => exact Nat.le_refl _
  | cons e es ih =>
      rw [Visited.entered_cons]
      cases e with
      | enter p => exact (ih _).trans (hb.insert_le depth v p.normalize)
      | found p d => exact ih v
      | failed p stage cause => exact ih v
      | close p => exact ih v

/-- A visit adds to the visited paths and takes none away. -/
theorem visited_of_visit (h : visit files limit n p depth g = some g') :
    ∃ es, g'.visited = g.visited.entered es := by
  obtain ⟨l, b, k, l', he, hms, -⟩ := moves_of_visit h []
  refine ⟨events l ++ events l', ?_⟩
  rw [Visited.entered_append]
  exact hms.visited_eq.trans (congrArg (Visited.entered · _) he.visited_eq)

/-! ## Every visit ends -/

/-- A visit may begin at some depth below a file: either it is too deep there, or the bound `n` is
large enough. -/
def MayDescend (limit : Option Nat) (bound : Nat → Visited → Nat) (n depth : Nat) (v : Visited) :
    Prop :=
  limit.any (· ≤ depth) = false → bound (depth + 1) v < n

theorem MayDescend.entered (hb : NestingBound files limit bound)
    (h : MayDescend limit bound n depth v) (es : List Event) :
    MayDescend limit bound n depth (v.entered es) := by
  intro hl
  exact (hb.entered_le _ _ _).trans_lt (h hl)

/-- The directives of a file are all dealt with if the visits of their targets end. -/
theorem foldlM_treat_ends (hb : NestingBound files limit bound)
    (ih : ∀ p depth g, bound depth g.visited < n → ∃ g', visit files limit n p depth g = some g')
    (ds : List Located) (h : MayDescend limit bound n depth g.visited) :
    ∃ g', ds.foldlM (treat limit (visit files limit n) p depth) g = some g' := by
  induction ds generalizing g with
  | nil => exact ⟨g, rfl⟩
  | cons d ds ihds =>
      rw [List.foldlM_cons]
      cases hd : d.directive.isFollowed with
      | false =>
          rw [treat_skip hd]
          exact ihds (g := g.emit (.found p d)) h
      | true =>
          cases hl : limit.any (· ≤ depth) with
          | true =>
              rw [treat_limited hd hl]
              exact ihds (g := (g.emit (.found p d)).limited) h
          | false =>
              rw [treat_follow hd hl]
              obtain ⟨g₁, hg₁⟩ :=
                ih (p.resolve d.directive.target) (depth + 1) (g.emit (.found p d)) (h hl)
              obtain ⟨es, hes⟩ := visited_of_visit hg₁
              rw [hg₁]
              refine ihds (g := g₁) ?_
              rw [hes]
              exact h.entered hb es

theorem visit_ends (hb : NestingBound files limit bound) :
    ∀ (n : Nat) (p : Path) (depth : Nat) (g : Progress), bound depth g.visited < n →
      ∃ g', visit files limit n p depth g = some g' := by
  intro n
  induction n with
  | zero => intro p depth g h; exact absurd h (Nat.not_lt_zero _)
  | succ n ih =>
      intro p depth g h
      cases hv : g.visited.contains p.normalize with
      | true => exact ⟨_, visit_again hv⟩
      | false =>
          cases hf : files p with
          | error cause => exact ⟨_, visit_missing hv hf⟩
          | ok deliveries =>
              -- The file is visited from here on, and that is what lowers the bound.
              have hready : MayDescend limit bound n depth (g.visited.insert p.normalize) := by
                intro hl
                have := hb.opened_lt depth g.visited p hv ⟨deliveries, hf⟩ hl
                omega
              obtain ⟨g₁, hg₁⟩ := foldlM_treat_ends (p := p)
                (g := ((g.emit (.enter p)).mark p.normalize).opened depth) hb ih
                (Scan.ofDeliveries deliveries).directives hready
              exact ⟨_, by rw [visit_opened hv hf, hg₁, Option.map_some]⟩

end Bounded

/-! ## The two bounds -/

theorem nestingBound_limit (files : FileSystem) (limit : Nat) :
    NestingBound files (some limit) fun depth _ => limit - depth where
  insert_le := by intro depth v k; exact Nat.le_refl _
  opened_lt := by
    intro depth v p _ _ hl
    have hlt : depth < limit := by simpa using hl
    omega

/-- The openable paths that were not visited. -/
noncomputable def unvisited {files : FileSystem} (hfin : (openable files).Finite) (v : Visited) :
    Finset Path :=
  hfin.toFinset.filter fun p => v.contains p.normalize = false

theorem mem_unvisited {files : FileSystem} {hfin : (openable files).Finite} {v : Visited}
    {p : Path} :
    p ∈ unvisited hfin v ↔ p ∈ openable files ∧ v.contains p.normalize = false := by
  simp [unvisited]

theorem unvisited_insert_subset {files : FileSystem} (hfin : (openable files).Finite) (v : Visited)
    (k : Path) : unvisited hfin (v.insert k) ⊆ unvisited hfin v := by
  intro p hp
  obtain ⟨hopen, hnew⟩ := mem_unvisited.1 hp
  rw [Visited.contains_insert, Bool.or_eq_false_iff] at hnew
  exact mem_unvisited.2 ⟨hopen, hnew.1⟩

theorem nestingBound_unvisited {files : FileSystem} (hfin : (openable files).Finite)
    (limit : Option Nat) : NestingBound files limit fun _ v => (unvisited hfin v).card where
  insert_le := by
    intro depth v k
    exact Finset.card_le_card (unvisited_insert_subset hfin v k)
  opened_lt := by
    intro depth v p hv hopen _
    refine Finset.card_lt_card ⟨unvisited_insert_subset hfin v p.normalize, fun hsub => ?_⟩
    have hp := mem_unvisited.1 (hsub (mem_unvisited.2 ⟨hopen, hv⟩))
    simp [Visited.contains_insert] at hp

/-- On a system that opens no long paths, finitely many can be opened. -/
theorem openable_finite_of_short {files : FileSystem} {n : Nat}
    (h : ∀ p, n ≤ p.bytes.length → ∃ cause, files p = .error cause) :
    (openable files).Finite := by
  have : Finite UInt8 := .of_injective UInt8.toFin fun _ _ => UInt8.toFin_inj.1
  have hbytes : ((Path.bytes '' openable files) : Set Bytes).Finite := by
    refine (List.finite_length_lt UInt8 n).subset ?_
    rintro _ ⟨p, ⟨deliveries, hp⟩, rfl⟩
    refine Nat.lt_of_not_le fun hlong => ?_
    obtain ⟨cause, hcause⟩ := h p hlong
    rw [hp] at hcause
    cases hcause
  refine hbytes.of_finite_image ?_
  rintro ⟨b⟩ _ ⟨b'⟩ _ hb
  exact congrArg Path.mk hb

/-! ## Every trace ends -/

section Traces

variable {σ : Type} {c : Context σ} {w : Walk σ} {r : Result σ} {fuel fuel' : Nat} {root : Path}
  {v : Visited} {s : σ}

theorem run_mono (h : run c fuel w = some r) (hf : fuel ≤ fuel') : run c fuel' w = some r := by
  induction fuel generalizing fuel' w with
  | zero => cases h
  | succ fuel ih =>
      obtain ⟨fuel', rfl⟩ : ∃ m, fuel' = m + 1 := ⟨fuel' - 1, by omega⟩
      rw [run] at h ⊢
      cases hstack : w.stack with
      | nil => rwa [hstack] at h
      | cons f rest =>
          rw [hstack] at h
          cases hstep : w.step c with
          | error stop => rwa [hstep] at h
          | ok w' =>
              rw [hstep] at h
              exact ih h (by omega)

theorem trace_mono (h : trace c fuel root v s = some r) (hf : fuel ≤ fuel') :
    trace c fuel' root v s = some r := by
  rw [trace] at h ⊢
  cases hstart : start c root v s with
  | error stop => rwa [hstart] at h
  | ok w =>
      rw [hstart] at h
      obtain ⟨r', hr', rfl⟩ := Option.map_eq_some_iff.1 h
      exact Option.map_eq_some_iff.2 ⟨r', run_mono hr' hf, rfl⟩

theorem exists_trace_of_bound {bound : Nat → Visited → Nat}
    (hb : NestingBound c.files c.maxDepth bound) (root : Path) (v : Visited) (s : σ) :
    ∃ fuel r, trace c fuel root v s = some r := by
  obtain ⟨g, hg⟩ := visit_ends hb (bound 0 v + 1) root 0 (.init v) (Nat.lt_succ_self _)
  obtain ⟨n, l, b, ht, hstack, -⟩ := exists_visit_iff.1 ⟨_, hg⟩
  have hend : Ended c s (n + 1) n l b := .inl ⟨hstack, Nat.lt_succ_self n⟩
  obtain ⟨r, hr, -⟩ := trace_performs ht hend
  exact ⟨n + 1, r, hr⟩

end Traces

/-- A trace ends if finitely many paths can be opened or if there is a limit: from some number of
steps on it has a result, always the same one, whatever the root, the visited paths and the sink
are. -/
theorem trace_ends {σ : Type} (c : Context σ)
    (h : (openable c.files).Finite ∨ c.maxDepth.isSome = true) (root : Path) (v : Visited) (s : σ) :
    ∃ fuel r, ∀ fuel', fuel ≤ fuel' → trace c fuel' root v s = some r := by
  have hends : ∃ fuel r, trace c fuel root v s = some r := by
    rcases h with hfin | hlim
    · exact exists_trace_of_bound (nestingBound_unvisited hfin c.maxDepth) root v s
    · obtain ⟨limit, hlimit⟩ := Option.isSome_iff_exists.1 hlim
      have hb := nestingBound_limit c.files limit
      rw [← hlimit] at hb
      exact exists_trace_of_bound hb root v s
  obtain ⟨fuel, r, hr⟩ := hends
  exact ⟨fuel, r, fun fuel' hf => trace_mono hr hf⟩

/-- Every path that ends in `x.h` can be opened, unless it is too long, and the file leads to the
one with the same name in the directory `loop` next to it, as if that were a link back. -/
def loopFiles (longest : Option Nat) : FileSystem := fun p =>
  if longest.any (· ≤ p.bytes.length) then .error (.system 36)
  else if (Utf8.encode "x.h".toList).isSuffixOf p.bytes then
    .ok [.bytes (Utf8.encode "#include \"loop/x.h\"\n".toList)]
  else .error (.system 2)

/-- A limit ends the trace where infinitely many paths can be opened, and so does the length of the
paths where there is no limit. -/
theorem trace_ends_loop :
    (openable (loopFiles none)).Infinite
      ∧ (∃ fuel r, ∀ fuel', fuel ≤ fuel' →
        trace ⟨loopFiles none, Journal.sink, some 3⟩ fuel' (.ofText "x.h".toList) .empty
          (.empty none) = some r)
      ∧ ∃ fuel r, ∀ fuel', fuel ≤ fuel' →
        trace ⟨loopFiles (some 4096), Journal.sink, none⟩ fuel' (.ofText "x.h".toList) .empty
          (.empty none) = some r := by
  refine ⟨?_, trace_ends _ (.inr rfl) _ _ _, trace_ends _ (.inl ?_) _ _ _⟩
  · refine Set.infinite_of_injective_forall_mem
      (f := fun n => Path.mk (List.replicate n 0x61 ++ Utf8.encode "x.h".toList)) ?_ ?_
    · intro n m h
      simpa using congrArg (·.bytes.length) h
    · intro n
      refine ⟨[.bytes (Utf8.encode "#include \"loop/x.h\"\n".toList)], ?_⟩
      simp [loopFiles]
  · refine openable_finite_of_short (n := 4096) fun p hp => ⟨.system 36, ?_⟩
    simp [loopFiles, hp]

end Walk

end IncludeTrace
