import IncludeTrace.Command.Run
import IncludeTrace.Proofs.NormalForm
import IncludeTrace.Proofs.Outcome

/-!
# What a trace asks the file system

A step opens one path at most, and `wanted?` names it before the step is made.  So the step
can be made with any files that agree with the right ones at this path (`step_congr`).  A
program can read the file first and make the step with it, and it never needs the file
system as a whole (`Command.step_of_answer`).

The paths that a run asks for are those that its steps want (`asked`).  Two file systems that
agree on these paths and on the root have the same trace (`trace_congr`).
-/

namespace IncludeTrace

namespace Walk

variable {σ : Type} {c : Context σ} {files : FileSystem} {w w' : Walk σ} {p root : Path}
  {e : Event} {depth fuel : Nat} {v : Visited} {s : σ}

/-- The same sink and the same limit with other files. -/
def Context.reading (c : Context σ) (files : FileSystem) : Context σ := { c with files := files }

/-! ## Steps -/

theorem visited_of_send (h : w.send c e = .ok w') : w'.visited = w.visited := by
  rw [send] at h
  split at h
  · cases h
    rfl
  · cases h

/-- What is done once an event is accepted matters for the visited paths there were. -/
theorem send_bind_congr {next next' : Walk σ → Result σ}
    (h : ∀ w', w'.visited = w.visited → next w' = next' w') :
    (w.send c e).bind next = (w.send c e).bind next' := by
  cases hs : w.send c e with
  | error stop => rfl
  | ok w' => exact h w' (visited_of_send hs)

theorem openPath_congr (h : files p = c.files p) (w : Walk σ) (depth : Nat) :
    w.openPath (c.reading files) p depth = w.openPath c p depth := by
  have hfiles : (c.reading files).files p = c.files p := h
  rw [openPath, openPath, hfiles]
  rfl

/-- A path that was visited before is not opened. -/
theorem enter_congr (h : w.visited.contains p.normalize = false → files p = c.files p)
    (depth : Nat) : w.enter (c.reading files) p depth = w.enter c p depth := by
  rw [enter_eq_bind, enter_eq_bind]
  refine send_bind_congr fun w' hw' => ?_
  rw [hw']
  cases hv : w.visited.contains p.normalize with
  | true => rfl
  | false => exact openPath_congr (h hv) _ depth

/-- A target that is too deep is not opened either. -/
theorem follow_congr
    (h : c.tooDeep depth = false → w.visited.contains p.normalize = false → files p = c.files p) :
    w.follow (c.reading files) p depth = w.follow c p depth := by
  have hdeep : (c.reading files).tooDeep depth = c.tooDeep depth := rfl
  rw [follow, follow, hdeep]
  cases ht : c.tooDeep depth with
  | true => rfl
  | false => exact enter_congr (h ht) (depth + 1)

/-- A step asks the file system about the path that it wants, and about no other one. -/
theorem step_congr (h : ∀ p, w.wanted? c = some p → files p = c.files p) :
    w.step (c.reading files) = w.step c := by
  obtain ⟨sink, visited, tally, stack⟩ := w
  cases stack with
  | nil => rfl
  | cons f rest =>
      obtain ⟨path, pending, fault, depth⟩ := f
      cases pending with
      | nil => rfl
      | cons d ds =>
          have hreport {w : Walk σ} (hw : w.visited = visited) :
              w.report (c.reading files) ⟨path, d :: ds, fault, depth⟩ d =
                w.report c ⟨path, d :: ds, fault, depth⟩ d := by
            rw [report_eq_bind, report_eq_bind]
            refine send_bind_congr fun w' hw' => ?_
            cases hd : d.directive.isFollowed with
            | false => rfl
            | true =>
                refine follow_congr fun hdeep hnew => h _ ?_
                rw [hw', hw, Path.normalize_resolve] at hnew
                simp [wanted?, hd, hdeep, hnew]
          exact hreport rfl

/-! ## Runs -/

/-- The paths that the steps of a run ask for. -/
def asked (c : Context σ) : Nat → Walk σ → List Path
  | 0, _ => []
  | fuel + 1, w =>
      match w.stack with
      | [] => []
      | _ :: _ =>
          match w.step c with
          | .error _ => (w.wanted? c).toList
          | .ok w' => (w.wanted? c).toList ++ asked c fuel w'

theorem run_congr (h : ∀ p ∈ asked c fuel w, files p = c.files p) :
    run (c.reading files) fuel w = run c fuel w := by
  induction fuel generalizing w with
  | zero => rfl
  | succ fuel ih =>
      rw [asked] at h
      rw [run, run]
      cases hstack : w.stack with
      | nil => rfl
      | cons f rest =>
          simp only [hstack] at h
          have hstep : w.step (c.reading files) = w.step c := by
            refine step_congr fun p hp => h p ?_
            split <;> simp [hp]
          simp only [hstep]
          cases hw : w.step c with
          | error stop => rfl
          | ok w' =>
              simp only [hw] at h
              exact ih fun p hp => h p (List.mem_append_right _ hp)

theorem start_congr (h : files root = c.files root) (v : Visited) (s : σ) :
    start (c.reading files) root v s = start c root v s :=
  enter_congr (fun _ => h) 0

/-- Files matter to a trace only at the root and at the paths that its steps ask for. -/
theorem trace_congr (hroot : files root = c.files root)
    (h : ∀ w, start c root v s = .ok w → ∀ p ∈ asked c fuel w, files p = c.files p) :
    trace (c.reading files) fuel root v s = trace c fuel root v s := by
  rw [trace, trace, start_congr hroot]
  cases hw : start c root v s with
  | error stop => rfl
  | ok w =>
      simp only [run_congr (h w hw)]
      rfl

end Walk

namespace Command

/-- A step of a run can be made without files if it wants none, and otherwise with the one file that
it wants. -/
theorem step_of_answer (files idle : FileSystem) (s : Settings) (w : Walk Console) :
    w.step (context files s) =
      match w.wanted? (context idle s) with
      | none => w.step (context idle s)
      | some p => w.step (context (fun _ => files p) s) := by
  have hsame : w.wanted? (context files s) = w.wanted? (context idle s) := rfl
  split
  · rename_i hnone
    refine (Walk.step_congr (c := context files s) fun p hp => ?_).symm
    rw [hsame, hnone] at hp
    cases hp
  · rename_i p hp
    refine (Walk.step_congr (c := context files s) fun q hq => ?_).symm
    rw [hsame, hp] at hq
    cases hq
    rfl

end Command

end IncludeTrace
