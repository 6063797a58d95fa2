import IncludeTrace.Command.Run
import IncludeTrace.Proofs.Content
import IncludeTrace.Proofs.Termination
import IncludeTrace.Tree
import Mathlib.Data.Fintype.BigOperators

/-!
# How many steps a trace takes

A trace that ends takes a step for each directive of a file that it opens, and one to close
the file.  A file is visited before it is opened, so no path is opened twice.  If finitely many
paths can be opened, and none of the files has more than `most` directives, this bounds the
steps.  The bound is carried along the trace as a *budget*: the steps that the open files still
take, and `most + 1` for each path that can be opened and was not visited.  Every step lowers
it (`Move.budget_lt`).

In a directory tree a path that can be opened is short and has no zero byte, so it can be told
from the others by `pathLimit` bytes (`card_le_of_short`).  A file has no more directives than
bytes.  So `Tree.stepBound` steps are enough for every trace (`Tree.exists_trace_of_stepBound`)
and for every run of the program (`Tree.exists_run_of_stepBound`).
-/

namespace IncludeTrace

namespace Walk

/-- The steps that the files a walk is in still take. -/
def workOn : List OpenFile → Nat
  | [] => 0
  | f :: rest => f.pending.length + 1 + workOn rest

/-- No file has more than `most` directives. -/
def AtMost (files : FileSystem) (most : Nat) : Prop :=
  ∀ p ds, files p = .ok ds → (Scan.ofDeliveries ds).directives.length ≤ most

/-- A bound on the steps from a position on. -/
noncomputable def budget {files : FileSystem} (hfin : (openable files).Finite) (most : Nat)
    (b : Position) : Nat :=
  workOn b.stack + (most + 1) * (unvisited hfin b.visited).card

section Budget

variable {files : FileSystem} {limit : Option Nat} {most n depth : Nat} {p root : Path}
  {v : Visited} {b b' : Position} {l : List Signal}

/-- The budget pays for a file that is opened. -/
theorem Enters.budget_le (hfin : (openable files).Finite) (hmost : AtMost files most)
    (he : Enters files p depth b l b') : budget hfin most b' ≤ budget hfin most b := by
  cases he with
  | again hv => exact Nat.le_refl _
  | missing hv hf =>
      have hle := Finset.card_le_card (unvisited_insert_subset hfin b.visited p.normalize)
      exact Nat.add_le_add_left (Nat.mul_le_mul_left _ hle) _
  | @opened ds hv hf =>
      have hlt := (nestingBound_unvisited hfin none).opened_lt 0 b.visited p hv ⟨ds, hf⟩ rfl
      have hpaid := Nat.mul_le_mul_left (most + 1) (Nat.succ_le_of_lt hlt)
      have hlen := hmost p ds hf
      rw [Nat.mul_succ] at hpaid
      simp only [budget, workOn]
      omega

/-- Every step costs something. -/
theorem Move.budget_lt (hfin : (openable files).Finite) (hmost : AtMost files most)
    (hm : Move files limit b l b') : budget hfin most b' < budget hfin most b := by
  cases hm with
  | leave =>
      simp only [budget, workOn, List.length_nil]
      omega
  | skip hd =>
      simp only [budget, workOn, List.length_cons]
      omega
  | limited hd hl =>
      simp only [budget, workOn, List.length_cons]
      omega
  | follow hd hl he =>
      have hle := he.budget_le hfin hmost
      refine hle.trans_lt ?_
      simp only [budget, workOn, List.length_cons]
      omega

theorem Moves.budget_le (hfin : (openable files).Finite) (hmost : AtMost files most)
    (hms : Moves files limit n b l b') : n + budget hfin most b' ≤ budget hfin most b := by
  induction hms with
  | refl => exact Nat.le_of_eq (Nat.zero_add _)
  | head hm _ ih =>
      have hlt := hm.budget_lt hfin hmost
      omega

theorem TraceTo.length_le (hfin : (openable files).Finite) (hmost : AtMost files most)
    (ht : TraceTo files limit root v n l b) : n ≤ (most + 1) * hfin.toFinset.card := by
  cases ht with
  | intro he hms =>
      calc
        n ≤ budget hfin most (.init v) :=
          (Nat.le_add_right ..).trans ((hms.budget_le hfin hmost).trans (he.budget_le hfin hmost))
        _ = (most + 1) * (unvisited hfin v).card := Nat.zero_add _
        _ ≤ (most + 1) * hfin.toFinset.card :=
          Nat.mul_le_mul_left _ (Finset.card_le_card (Finset.filter_subset ..))

end Budget

/-- A trace ends within its budget, whatever the root, the visited paths and the sink are. -/
theorem exists_trace_of_budget {σ : Type} {c : Context σ} (hfin : (openable c.files).Finite)
    {most : Nat} (hmost : AtMost c.files most) (root : Path) (v : Visited) (s : σ) :
    ∃ r, trace c ((most + 1) * hfin.toFinset.card + 1) root v s = some r := by
  obtain ⟨g, hg⟩ := visit_ends (nestingBound_unvisited hfin c.maxDepth) _ root 0 (.init v)
    (Nat.lt_succ_self _)
  obtain ⟨n, l, b, ht, hstack, -⟩ := exists_visit_iff.1 ⟨_, hg⟩
  obtain ⟨r, hr, -⟩ := trace_performs ht (s := s)
    (.inl ⟨hstack, Nat.lt_succ_of_le (ht.length_le hfin hmost)⟩)
  exact ⟨r, hr⟩

end Walk

/-! ## Short paths -/

/-- The bytes of a path, with zeros behind them. -/
def Path.padded (n : Nat) (p : Path) : Fin n → Fin UInt8.size := fun i => (p.bytes.getD i 0).toFin

/-- A zero tells that there is no byte, if no byte is zero. -/
theorem eq_of_getD {x y : Option UInt8} (hx : x ≠ some 0) (hy : y ≠ some 0)
    (h : x.getD 0 = y.getD 0) : x = y := by
  cases x with
  | none =>
      cases y with
      | none => rfl
      | some y => exact absurd (congrArg some h.symm) hy
  | some x =>
      cases y with
      | none => exact absurd (congrArg some h) hx
      | some y => exact congrArg some h

/-- Paths without a zero byte can be told apart by their padded bytes. -/
theorem Path.eq_of_padded {n : Nat} {p q : Path} (hp : 0 ∉ p.bytes ∧ p.bytes.length < n)
    (hq : 0 ∉ q.bytes ∧ q.bytes.length < n) (h : p.padded n = q.padded n) : p = q := by
  have hsame (i : Nat) : p.bytes[i]? = q.bytes[i]? := by
    rcases Nat.lt_or_ge i n with hi | hi
    · exact eq_of_getD (fun hx => hp.1 (List.mem_of_getElem? hx))
        (fun hy => hq.1 (List.mem_of_getElem? hy)) (UInt8.toFin_inj.1 (congrFun h ⟨i, hi⟩))
    · rw [List.getElem?_eq_none (by omega), List.getElem?_eq_none (by omega)]
  exact congrArg Path.mk (List.ext_getElem? hsame)

/-- There are few paths that are short and have no zero byte. -/
theorem card_le_of_short {n : Nat} {s : Finset Path}
    (hs : ∀ p ∈ s, 0 ∉ p.bytes ∧ p.bytes.length < n) : s.card ≤ Nat.pow 256 n := by
  calc
    s.card ≤ (Finset.univ : Finset (Fin n → Fin UInt8.size)).card :=
      Finset.card_le_card_of_injOn (Path.padded n) (fun _ _ => Finset.mem_univ _)
        fun p hp q hq h => Path.eq_of_padded (hs p hp) (hs q hq) h
    _ = Nat.pow 256 n := by
      rw [Finset.card_univ, Fintype.card_fun, Fintype.card_fin, Fintype.card_fin]
      rfl

namespace Tree

variable {t : Tree} {cwd : Location} {p : Path} {ds : List Delivery}

theorem le_foldl_max {k m : Nat} {sizes : List Nat} (h : k ≤ m ∨ k ∈ sizes) :
    k ≤ sizes.foldl max m := by
  induction sizes generalizing m with
  | nil => simpa using h
  | cons size sizes ih =>
      refine ih ?_
      rcases h with h | h
      · exact .inl (h.trans (Nat.le_max_left ..))
      · rcases List.mem_cons.1 h with rfl | h
        · exact .inl (Nat.le_max_right ..)
        · exact .inr h

/-- No file is larger than the largest. -/
theorem length_le_largest {l : Location} {contents : Bytes}
    (h : t.entry? l = some (.file contents)) : contents.length ≤ t.largest := by
  cases l with
  | nil => cases h
  | cons n l =>
      obtain ⟨before, after, hentries, -⟩ := List.lookup_eq_some_iff.1 h
      refine le_foldl_max (.inr (List.mem_map.2 ⟨(n :: l, .file contents), ?_, rfl⟩))
      rw [hentries]
      exact List.mem_append_right _ (.head _)

/-- What can be opened, and what it gives. -/
theorem of_read_eq_ok (h : t.read cwd p = .ok ds) :
    (0 ∉ p.bytes ∧ p.bytes.length < pathLimit) ∧
      ((∃ contents, ds = [.bytes contents] ∧ contents.length ≤ t.largest) ∨
        ds = [.fault .isDirectory]) := by
  rw [read] at h
  split at h
  · cases h
  · rename_i hzero
    split at h
    · cases h
    · split at h
      · cases h
      · rename_i hshort
        refine ⟨⟨by simpa using hzero, Nat.lt_of_not_le hshort⟩, ?_⟩
        split at h
        · cases h
        · split at h
          · rename_i contents hentry
            cases h
            exact .inl ⟨contents, rfl, length_le_largest hentry⟩
          · cases h
            exact .inr rfl
          · cases h
          · cases h

theorem atMost_largest (t : Tree) (cwd : Location) :
    Walk.AtMost (t.fileSystem cwd) t.largest := by
  intro p ds h
  obtain ⟨-, ⟨contents, rfl, hlen⟩ | rfl⟩ := of_read_eq_ok h
  · exact (Scan.length_directives_le _).trans
      ((Scan.linesRead_le_length (.single contents)).trans hlen)
  · rw [Scan.directives_of_fault]
    exact Nat.zero_le _

theorem openable_finite (t : Tree) (cwd : Location) :
    (Walk.openable (t.fileSystem cwd)).Finite := by
  refine Walk.openable_finite_of_short (n := pathLimit) fun p hp => ?_
  cases h : t.fileSystem cwd p with
  | error cause => exact ⟨cause, rfl⟩
  | ok ds =>
      have hlt := (of_read_eq_ok h).1.2
      omega

/-- `stepBound` steps are enough for every trace. -/
theorem exists_trace_of_stepBound {σ : Type} (t : Tree) (cwd : Location) (k : Sink σ)
    (limit : Option Nat) (root : Path) (v : Visited) (s : σ) :
    ∃ r, Walk.trace ⟨t.fileSystem cwd, k, limit⟩ t.stepBound root v s = some r := by
  have hfin := t.openable_finite cwd
  obtain ⟨r, hr⟩ := Walk.exists_trace_of_budget (c := ⟨t.fileSystem cwd, k, limit⟩) hfin
    (t.atMost_largest cwd) root v s
  refine ⟨r, Walk.trace_mono hr ?_⟩
  have hcard : hfin.toFinset.card ≤ Nat.pow 256 pathLimit := by
    refine card_le_of_short fun p hp => ?_
    obtain ⟨ds, hds⟩ := hfin.mem_toFinset.1 hp
    exact (of_read_eq_ok hds).1
  rw [stepBound, Nat.mul_comm]
  exact Nat.succ_le_succ (Nat.mul_le_mul_right _ hcard)

theorem exists_outcome_of_stepBound {σ : Type} (t : Tree) (cwd : Location) (k : Sink σ)
    (limit : Option Nat) (root : Path) (v : Visited) (s : σ) :
    ∃ o, Walk.outcome ⟨t.fileSystem cwd, k, limit⟩ t.stepBound root v s = some o := by
  obtain ⟨r, hr⟩ := t.exists_trace_of_stepBound cwd k.kept limit root v ([], s)
  exact ⟨Walk.outcomeOf r, congrArg (Option.map Walk.outcomeOf) hr⟩

/-- And so they are for every run of the program. -/
theorem exists_run_of_stepBound (t : Tree) (cwd : Location) (s : Settings) (console : Console) :
    ∃ e, Command.run (t.fileSystem cwd) t.stepBound s console = some e := by
  rw [Command.run]
  split
  · exact ⟨_, rfl⟩
  · rename_i console' _
    obtain ⟨r, hr⟩ := t.exists_trace_of_stepBound cwd Console.sink s.maxDepth s.file .empty console'
    have htrace : Walk.trace (Command.context (t.fileSystem cwd) s) t.stepBound s.file .empty
        console' = some r := hr
    rw [htrace]
    cases r with
    | error stop => exact ⟨_, rfl⟩
    | ok w => exact ⟨_, rfl⟩

end Tree

end IncludeTrace
