import IncludeTrace.Proofs.HigherLimit
import IncludeTrace.Proofs.Joining
import IncludeTrace.Proofs.Termination
import Mathlib.Data.List.Chain

/-!
# The stack of a trace

A trace looks at its stack again and again.  `look?` is the state it is in when it
does so for the `n`-th time, and the trace goes on from there (`trace_of_look?`).

Whenever it looks, the stack is a path through the files from the root down.  The
file above another one is the target of the directive that was taken last from the
one below, and its depth is its place, counted from the bottom.  All files on the
stack were visited by this trace, each of them by another normal form, and none was
visited before it.  `Stacked` says so, and it holds at every position of a trace.
A file goes on the stack in one way only, so what is to be shown is what entering a
path does (`Enters.stacked`).

It follows that files which include each other do not make the stack longer than
there are distinct files, and that a limit bounds it at any rate.
-/

namespace IncludeTrace

namespace OpenFile

/-- The file was opened, and what is left of its directives is the end of what was found in it. -/
def Scanned (files : FileSystem) (f : OpenFile) : Prop :=
  ∃ deliveries, files f.path = .ok deliveries ∧
    f.pending <:+ (Scan.ofDeliveries deliveries).directives

/-- The directive that was taken last from the file is a quoted one, and `p` is where its target
lies. -/
def LeadsTo (files : FileSystem) (f : OpenFile) (p : Path) : Prop :=
  ∃ deliveries taken d, files f.path = .ok deliveries ∧
    (Scan.ofDeliveries deliveries).directives = taken ++ d :: f.pending ∧
    d.directive.quote = .quoted ∧ p = f.path.resolve d.directive.target

/-- By what the visited paths tell a file from others. -/
def key (f : OpenFile) : List Component := f.path.normalize.components

variable {files : FileSystem} {p : Path} {d : Located} {ds : List Located} {fault : Option Cause}
  {depth : Nat}

theorem Scanned.tail (h : Scanned files ⟨p, d :: ds, fault, depth⟩) :
    Scanned files ⟨p, ds, fault, depth⟩ := by
  obtain ⟨deliveries, hf, hsuffix⟩ := h
  exact ⟨deliveries, hf, (List.suffix_cons d ds).trans hsuffix⟩

/-- Once a quoted directive is taken, the file leads to its target. -/
theorem Scanned.leadsTo (h : Scanned files ⟨p, d :: ds, fault, depth⟩)
    (hd : d.directive.isFollowed = true) :
    LeadsTo files ⟨p, ds, fault, depth⟩ (p.resolve d.directive.target) := by
  obtain ⟨deliveries, hf, taken, htaken⟩ := h
  exact ⟨deliveries, taken, d, hf, htaken.symm, beq_iff_eq.1 hd, rfl⟩

/-- A file leads to paths in normal form only. -/
theorem LeadsTo.canonical {f : OpenFile} (h : f.LeadsTo files p) : p.Canonical := by
  obtain ⟨-, -, d, -, -, -, rfl⟩ := h
  exact Path.canonical_iff.2 (Path.normalize_resolve _ _)

end OpenFile

theorem Visited.contains_insert_of_contains {v : Visited} {q : Path} (h : v.contains q = true)
    (p : Path) : (v.insert p).contains q = true := by
  rw [Visited.contains_insert, h, Bool.true_or]

namespace Walk

/-! ## Positions -/

/-- How the files on a stack lie above each other.  The paths in `v` were visited before the
trace. -/
structure Stacked (files : FileSystem) (limit : Option Nat) (v : Visited) (b : Position) :
    Prop where
  /-- The depths count the files from the bottom. -/
  depths : b.stack.map OpenFile.depth = (List.range b.stack.length).reverse
  /-- No file is there twice. -/
  distinct : (b.stack.map OpenFile.key).Nodup
  /-- Every file is visited now. -/
  visited : ∀ f ∈ b.stack, b.visited.contains f.path.normalize = true
  /-- No file was visited before the trace. -/
  unvisited : ∀ f ∈ b.stack, v.contains f.path.normalize = false
  /-- What was visited before the trace is visited now. -/
  grown : ∀ q, v.contains q = true → b.visited.contains q = true
  /-- A file leads to the one above it. -/
  chain : b.stack.IsChain fun g f => f.LeadsTo files g.path
  /-- What is left of the directives of a file is the end of them. -/
  scanned : ∀ f ∈ b.stack, f.Scanned files
  /-- The limit bounds the stack. -/
  within : ∀ m, limit = some m → b.stack.length ≤ m + 1

section Positions

variable {files : FileSystem} {limit : Option Nat} {v now : Visited} {b b' : Position}
  {l : List Signal} {t : Tally} {p : Path} {d : Located} {ds : List Located}
  {fault : Option Cause} {depth n : Nat} {f g : OpenFile} {rest : List OpenFile}

theorem Stacked.init (files : FileSystem) (limit : Option Nat) (v : Visited) :
    Stacked files limit v (.init v) where
  depths := rfl
  distinct := List.nodup_nil
  visited := by simp [Position.init]
  unvisited := by simp [Position.init]
  grown := fun _ h => h
  chain := .nil
  scanned := by simp [Position.init]
  within := by simp [Position.init]

/-- The totals have no part in it. -/
theorem Stacked.tally (h : Stacked files limit v ⟨now, t, rest⟩) (t' : Tally) :
    Stacked files limit v ⟨now, t', rest⟩ :=
  ⟨h.depths, h.distinct, h.visited, h.unvisited, h.grown, h.chain, h.scanned, h.within⟩

theorem Stacked.insert (h : Stacked files limit v b) (p : Path) :
    Stacked files limit v ⟨b.visited.insert p, b.tally, b.stack⟩ :=
  ⟨h.depths, h.distinct, fun f hf => Visited.contains_insert_of_contains (h.visited f hf) p,
    h.unvisited, fun q hq => Visited.contains_insert_of_contains (h.grown q hq) p, h.chain,
    h.scanned, h.within⟩

theorem depths_cons_iff :
    (f :: rest).map OpenFile.depth = (List.range (f :: rest).length).reverse ↔
      f.depth = rest.length ∧ rest.map OpenFile.depth = (List.range rest.length).reverse := by
  simp [List.range_succ]

/-- The depth of the file on top is the number of files below it. -/
theorem Stacked.depth_eq (h : Stacked files limit v ⟨now, t, f :: rest⟩) : f.depth = rest.length :=
  (depths_cons_iff.1 h.depths).1

/-- The file on top is taken off. -/
theorem Stacked.pop (h : Stacked files limit v ⟨now, t, f :: rest⟩) :
    Stacked files limit v ⟨now, t, rest⟩ where
  depths := (depths_cons_iff.1 h.depths).2
  distinct := (List.nodup_cons.1 h.distinct).2
  visited := fun g hg => h.visited g (List.mem_cons_of_mem _ hg)
  unvisited := fun g hg => h.unvisited g (List.mem_cons_of_mem _ hg)
  grown := h.grown
  chain := h.chain.tail
  scanned := fun g hg => h.scanned g (List.mem_cons_of_mem _ hg)
  within := fun m hm => Nat.le_of_succ_le (h.within m hm)

/-- A directive is taken from the file on top. -/
theorem Stacked.take (h : Stacked files limit v ⟨now, t, ⟨p, d :: ds, fault, depth⟩ :: rest⟩) :
    Stacked files limit v ⟨now, t, ⟨p, ds, fault, depth⟩ :: rest⟩ where
  depths := h.depths
  distinct := h.distinct
  visited := List.forall_mem_cons.2 (List.forall_mem_cons.1 h.visited)
  unvisited := List.forall_mem_cons.2 (List.forall_mem_cons.1 h.unvisited)
  grown := h.grown
  chain := List.isChain_cons.2 (List.isChain_cons.1 h.chain)
  scanned :=
    have ⟨htop, hrest⟩ := List.forall_mem_cons.1 h.scanned
    List.forall_mem_cons.2 ⟨htop.tail, hrest⟩
  within := h.within

/-- A file goes on the stack.  It was not visited, and the file below leads to it. -/
theorem Stacked.push (h : Stacked files limit v b)
    (hnew : b.visited.contains f.path.normalize = false) (hscanned : f.Scanned files)
    (hdepth : f.depth = b.stack.length) (hlead : ∀ g ∈ b.stack.head?, g.LeadsTo files f.path)
    (hlimit : ∀ m, limit = some m → f.depth ≤ m) :
    Stacked files limit v ⟨b.visited.insert f.path.normalize, t, f :: b.stack⟩ where
  depths := depths_cons_iff.2 ⟨hdepth, h.depths⟩
  distinct := by
    refine List.nodup_cons.2 ⟨fun hmem => ?_, h.distinct⟩
    -- A file with the same key would have been visited.
    obtain ⟨g, hg, hkey⟩ := List.mem_map.1 hmem
    have hsame : b.visited.contains g.path.normalize = b.visited.contains f.path.normalize :=
      congrArg (fun k => b.visited.paths.any fun q => q.components == k) hkey
    rw [h.visited g hg, hnew] at hsame
    cases hsame
  visited :=
    List.forall_mem_cons.2 ⟨by simp [Visited.contains_insert], (h.insert _).visited⟩
  unvisited := by
    refine List.forall_mem_cons.2 ⟨?_, h.unvisited⟩
    cases hv : v.contains f.path.normalize with
    | false => rfl
    | true => rw [h.grown _ hv] at hnew; cases hnew
  grown := (h.insert _).grown
  chain := List.isChain_cons.2 ⟨hlead, h.chain⟩
  scanned := List.forall_mem_cons.2 ⟨hscanned, h.scanned⟩
  within := by
    intro m hm
    have hle := hlimit m hm
    rw [List.length_cons]
    omega

/-- The depth of a file is its number, counted from the bottom. -/
theorem Stacked.depth_of_number (h : Stacked files limit v b) (hf : b.stack.reverse[n]? = some f) :
    f.depth = n := by
  have hdepths : b.stack.reverse.map OpenFile.depth = List.range b.stack.length := by
    rw [List.map_reverse, h.depths, List.reverse_reverse]
  have hnumber : (List.range b.stack.length)[n]? = some f.depth := by
    rw [← hdepths, List.getElem?_map, hf, Option.map_some]
  obtain ⟨hn, hnumber⟩ := List.getElem?_eq_some_iff.1 hnumber
  rw [← hnumber, List.getElem_range]

/-- A file leads to the next one, counted from the bottom. -/
theorem Stacked.leadsTo_next (h : Stacked files limit v b) (hf : b.stack.reverse[n]? = some f)
    (hg : b.stack.reverse[n + 1]? = some g) : f.LeadsTo files g.path := by
  obtain ⟨hn, rfl⟩ := List.getElem?_eq_some_iff.1 hf
  obtain ⟨hn', rfl⟩ := List.getElem?_eq_some_iff.1 hg
  exact List.isChain_iff_getElem.1 (List.isChain_reverse.2 h.chain) n hn'

/-- What entering a path does to the stack, for a path to which the file on top leads. -/
theorem Enters.stacked (he : Enters files p depth b l b') (h : Stacked files limit v b)
    (hdepth : depth = b.stack.length) (hlead : ∀ g ∈ b.stack.head?, g.LeadsTo files p)
    (hlimit : ∀ m, limit = some m → depth ≤ m) : Stacked files limit v b' := by
  cases he with
  | again hv => exact h.tally _
  | missing hv hf => exact (h.insert _).tally _
  | opened hv hf =>
      exact h.push (f := ⟨p, _, _, depth⟩) hv ⟨_, hf, List.suffix_rfl⟩ hdepth hlead hlimit

/-- What a step does to the stack. -/
theorem Move.stacked (hm : Move files limit b l b') (h : Stacked files limit v b) :
    Stacked files limit v b' := by
  cases hm with
  | leave => exact h.pop.tally _
  | skip hd => exact h.take.tally _
  | limited hd hl => exact h.take.tally _
  | @follow _ _ p d ds fault depth rest _ _ hd hl he =>
      refine he.stacked (h.take.tally _) (congrArg Nat.succ h.depth_eq) ?_ ?_
      · intro g hg
        cases hg
        exact (h.scanned _ List.mem_cons_self).leadsTo hd
      · rintro m rfl
        exact Nat.lt_of_not_le (by simpa using hl)

theorem Moves.stacked (hms : Moves files limit n b l b') (h : Stacked files limit v b) :
    Stacked files limit v b' := by
  induction hms with
  | refl => exact h
  | head hm _ ih => exact ih (hm.stacked h)

/-- At every position of a trace the files lie above each other. -/
theorem TraceTo.stacked {root : Path} (ht : TraceTo files limit root v n l b) :
    Stacked files limit v b := by
  cases ht with
  | intro he hms =>
      have hfirst := he.stacked (.init files limit v) rfl (by simp [Position.init])
        (fun m _ => Nat.zero_le m)
      exact hms.stacked hfirst

end Positions

/-! ## Looks at the stack -/

section Looks

variable {σ : Type}

/-- The state in which a trace looks at its stack for the `n`-th time, counted from zero, if it
gets there. -/
def look? (c : Context σ) (root : Path) (v : Visited) (s : σ) : Nat → Option (Walk σ)
  | 0 => (start c root v s).toOption
  | n + 1 =>
      (look? c root v s n).bind fun w => if w.stack = [] then none else (w.step c).toOption

variable {c : Context σ} {root : Path} {v : Visited} {s : σ} {n : Nat} {w : Walk σ}
  {b : Position} {l : List Signal}

/-- What is done without a refusal leads to the position after it. -/
theorem Performs.exists_eq_walk {r : Result σ} (h : Performs c s v l b r)
    (hr : r.toOption = some w) : ∃ s', w = b.walk s' := by
  rcases hs : c.sink.feed s l with ⟨s', _ | cause⟩
  · rw [h.eq_ok hs] at hr
    cases hr
    exact ⟨s', rfl⟩
  · obtain ⟨w', rfl, -⟩ := h.exists_eq_error hs
    cases hr

theorem look?_succ_eq_some : look? c root v s (n + 1) = some w ↔
    ∃ w₀, look? c root v s n = some w₀ ∧ w₀.stack ≠ [] ∧ w₀.step c = .ok w := by
  rw [look?, Option.bind_eq_some_iff]
  refine exists_congr fun w₀ => and_congr_right fun _ => ?_
  by_cases hstack : w₀.stack = []
  · simp [hstack]
  · rw [if_neg hstack]
    cases w₀.step c <;> simp [hstack, Except.toOption]

/-- What a trace looks at is a position of the trace. -/
theorem exists_traceTo_of_look? (h : look? c root v s n = some w) :
    ∃ l b s', TraceTo c.files c.maxDepth root v n l b ∧ w = b.walk s' := by
  induction n generalizing w with
  | zero =>
      obtain ⟨l, b, he⟩ := exists_enters c.files root 0 (.init v)
      have hstart : Performs c _ v l b (start c root v s) :=
        enter_performs c (c.sink.note s (.traceStarts root)) he
      obtain ⟨s', hw⟩ := hstart.exists_eq_walk h
      exact ⟨_, b, s', .intro he .refl, hw⟩
  | succ n ih =>
      obtain ⟨w₀, hw₀, hstack, hstep⟩ := look?_succ_eq_some.1 h
      obtain ⟨l, b, s₀, ht, rfl⟩ := ih hw₀
      obtain ⟨l', b', hm⟩ := exists_move c.files c.maxDepth (b := b) hstack
      obtain ⟨s', hw⟩ := (step_performs c s₀ hm).exists_eq_walk (by rw [hstep]; rfl)
      cases ht with
      | intro he hms => exact ⟨_, b', s', .intro he (hms.trans (.single hm)), hw⟩

/-- A trace goes on from where it looks at its stack. -/
theorem trace_of_look? (h : look? c root v s n = some w) (fuel : Nat) :
    trace c (n + fuel) root v s = (run c fuel w).map fun r => r.map (finish c) := by
  induction n generalizing w fuel with
  | zero =>
      rw [look?] at h
      rw [trace, Nat.zero_add]
      cases hstart : start c root v s with
      | error stop => rw [hstart] at h; cases h
      | ok w' => rw [hstart] at h; cases h; rfl
  | succ n ih =>
      obtain ⟨w₀, hw₀, hstack, hstep⟩ := look?_succ_eq_some.1 h
      obtain ⟨f, rest, hcons⟩ := List.exists_cons_of_ne_nil hstack
      have hrun : run c (fuel + 1) w₀ = run c fuel w := by rw [run, hcons, hstep]
      rw [Nat.add_right_comm, Nat.add_assoc, ih hw₀, hrun]

/-- A trace has no result yet just when it looks at its stack once more. -/
theorem trace_eq_none_iff (c : Context σ) (root : Path) (v : Visited) (s : σ) (n : Nat) :
    trace c n root v s = none ↔ ∃ w, look? c root v s n = some w := by
  refine ⟨fun h => ?_, fun ⟨w, hw⟩ => trace_of_look? hw 0⟩
  induction n with
  | zero =>
      rw [trace] at h
      cases hstart : start c root v s with
      | error stop => rw [hstart] at h; cases h
      | ok w => exact ⟨w, by rw [look?, hstart]; rfl⟩
  | succ n ih =>
      -- What has no result with one more look had none before.
      have hnone : trace c n root v s = none := by
        cases hr : trace c n root v s with
        | none => rfl
        | some r => rw [trace_mono hr (Nat.le_succ n)] at h; cases h
      obtain ⟨w₀, hw₀⟩ := ih hnone
      rw [trace_of_look? hw₀ 1, Option.map_eq_none_iff, run] at h
      split at h
      · cases h
      · rename_i hstack
        cases hstep : w₀.step c with
        | error stop => rw [hstep] at h; cases h
        | ok w => exact ⟨w, look?_succ_eq_some.2 ⟨w₀, hw₀, by simp [hstack], hstep⟩⟩

/-- A trace of any root, with any files, visited paths, limit and sink, whenever it looks at its
stack.  It looks once more just when it has no result yet, and goes on from what it sees.  There the
files are counted from the bottom, and the depth of a file is its number.  No two files have the
same normal form; every one is visited, and none was before the trace.  Above the bottom a file has
a path in normal form, and it is the target of the quoted directive that was taken last from the
file below.  The stack is bounded by the limit, and what is left of the directives of a file is the
end of what was found in it. -/
theorem stack_at_every_look (c : Context σ) (root : Path) (v : Visited) (s : σ) (n : Nat) :
    (trace c n root v s = none ↔ ∃ w, look? c root v s n = some w) ∧
    ∀ w, look? c root v s n = some w →
      (∀ fuel, trace c (n + fuel) root v s = (run c fuel w).map fun r => r.map (finish c))
        ∧ (∀ (i : Nat) (f : OpenFile), w.stack.reverse[i]? = some f → f.depth = i)
        ∧ (w.stack.map fun f => f.path.normalize.components).Nodup
        ∧ (∀ f ∈ w.stack, w.visited.contains f.path.normalize = true ∧
          v.contains f.path.normalize = false)
        ∧ (∀ (i : Nat) (f g : OpenFile), w.stack.reverse[i]? = some f →
          w.stack.reverse[i + 1]? = some g → g.path.Canonical ∧ f.LeadsTo c.files g.path)
        ∧ (∀ limit, c.maxDepth = some limit → w.stack.length ≤ limit + 1)
        ∧ ∀ f ∈ w.stack, f.Scanned c.files := by
  refine ⟨trace_eq_none_iff c root v s n, fun w hw => ?_⟩
  obtain ⟨l, b, s', ht, rfl⟩ := exists_traceTo_of_look? hw
  have h := ht.stacked
  exact ⟨trace_of_look? hw, fun i f => h.depth_of_number, h.distinct,
    fun f hf => ⟨h.visited f hf, h.unvisited f hf⟩,
    fun i f g hf hg => ⟨(h.leadsTo_next hf hg).canonical, h.leadsTo_next hf hg⟩, h.within,
    h.scanned⟩

/-- At its fourth look a trace with the limit three is in four files, the shared one on top. -/
theorem stack_at_every_look_shared :
    ∃ w, look? ⟨sharedFiles, Journal.sink, some 3⟩ (.ofText "main.c".toList) .empty (.empty none) 3
        = some w
      ∧ w.stack.map OpenFile.place =
        [("shared.h", 3), ("b.h", 2), ("a.h", 1), ("main.c", 0)].map
          (fun x => (.ofText x.1.toList, x.2))
      ∧ (w.stack.map fun f => f.path.normalize.components).Nodup
      ∧ (∀ f ∈ w.stack, w.visited.contains f.path.normalize = true ∧ f.Scanned sharedFiles)
      ∧ ∃ f g, w.stack.reverse[2]? = some f ∧ w.stack.reverse[3]? = some g ∧
        f.LeadsTo sharedFiles g.path := by
  have hmap : (look? ⟨sharedFiles, Journal.sink, some 3⟩ (.ofText "main.c".toList) .empty
      (.empty none) 3).map (·.stack.map OpenFile.place) =
      some ([("shared.h", 3), ("b.h", 2), ("a.h", 1), ("main.c", 0)].map
        fun x => (.ofText x.1.toList, x.2)) := by decide +kernel
  obtain ⟨w, hw, hplaces⟩ := Option.map_eq_some_iff.1 hmap
  obtain ⟨-, hlook⟩ := stack_at_every_look ⟨sharedFiles, Journal.sink, some 3⟩
    (.ofText "main.c".toList) .empty (.empty none) 3
  obtain ⟨-, -, hdistinct, hvisited, hchain, -, hscanned⟩ := hlook w hw
  have hlength : w.stack.reverse.length = 4 := by
    rw [List.length_reverse, ← List.length_map (f := OpenFile.place), hplaces]
    rfl
  have hf := List.getElem?_eq_getElem (l := w.stack.reverse) (i := 2) (by omega)
  have hg := List.getElem?_eq_getElem (l := w.stack.reverse) (i := 3) (by omega)
  exact ⟨w, hw, hplaces, hdistinct, fun f hf => ⟨(hvisited f hf).1, hscanned f hf⟩,
    _, _, hf, hg, (hchain 2 _ _ hf hg).2⟩

end Looks

end Walk

end IncludeTrace
