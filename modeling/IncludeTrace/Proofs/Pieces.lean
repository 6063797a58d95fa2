import Mathlib.Data.List.Basic
import Mathlib.Data.List.TakeWhile

/-!
# Lists in pieces

Lines, path segments, blanks and option names are all pieces of a list.  A piece ends in
front of the first element of a kind (`cut_iff`), or at a terminator behind each piece
(`splitOn_terminated`), or pieces stand with a divider between them (`intercalate_cons`).
-/

namespace IncludeTrace

variable {α : Type}

/-- A list is cut in front of the first element that does not have a property. -/
theorem cut_iff {p : α → Bool} {l front behind : List α} {x : α} :
    l.takeWhile p = front ∧ l.dropWhile p = x :: behind ↔
      l = front ++ x :: behind ∧ (∀ c ∈ front, p c = true) ∧ p x = false := by
  constructor
  · rintro ⟨rfl, hdrop⟩
    have hx := List.head?_dropWhile_not p l
    rw [hdrop] at hx
    refine ⟨?_, fun c hc => List.mem_takeWhile_imp hc, by simpa using hx⟩
    rw [← hdrop, List.takeWhile_append_dropWhile]
  · rintro ⟨rfl, hfront, hx⟩
    rw [List.takeWhile_append_of_pos hfront, List.dropWhile_append_of_pos hfront,
      List.takeWhile_cons_of_neg (by simp [hx]), List.dropWhile_cons_of_neg (by simp [hx]),
      List.append_nil]
    exact ⟨rfl, rfl⟩

/-! ## Terminated pieces -/

theorem splitOn_of_notMem [DecidableEq α] {x : α} {b : List α} (h : x ∉ b) :
    b.splitOn x = [b] := by
  have hone : ∀ l ∈ [b], x ∉ l := fun l hl => List.mem_singleton.1 hl ▸ h
  simpa using List.splitOn_intercalate x hone (List.cons_ne_nil b [])

/-- Pieces that do not hold their terminator can be told apart, and so can a rest behind them. -/
theorem splitOn_terminated [DecidableEq α] {x : α} {pieces : List (List α)} {rest : List α}
    (h : ∀ b ∈ pieces, x ∉ b) (hrest : x ∉ rest) :
    (pieces.flatMap (· ++ [x]) ++ rest).splitOn x = pieces ++ [rest] := by
  induction pieces with
  | nil => exact splitOn_of_notMem hrest
  | cons b pieces ih =>
      have hsplit : (b ++ x :: (pieces.flatMap (· ++ [x]) ++ rest)).splitOn x =
          b.splitOn x ++ (pieces.flatMap (· ++ [x]) ++ rest).splitOn x :=
        List.splitOnP_append_cons _ _ (beq_self_eq_true x)
      rw [List.flatMap_cons, List.append_assoc, List.append_assoc, List.singleton_append, hsplit,
        splitOn_of_notMem (h b List.mem_cons_self), ih fun b hb => h b (List.mem_cons_of_mem _ hb)]
      rfl

/-! ## Divided pieces -/

/-- Every piece but the first has the divider in front of it. -/
theorem intercalate_cons (divider piece : List α) (pieces : List (List α)) :
    divider.intercalate (piece :: pieces) = piece ++ pieces.flatMap (divider ++ ·) := by
  induction pieces generalizing piece with
  | nil => simp
  | cons next pieces ih =>
      rw [List.intercalate_cons_cons, ih]
      simp

/-- What is not in the divider is between the pieces just when it is in one of them. -/
theorem mem_intercalate {x : α} {divider : List α} (hx : x ∉ divider) (pieces : List (List α)) :
    x ∈ divider.intercalate pieces ↔ ∃ piece ∈ pieces, x ∈ piece := by
  cases pieces with
  | nil => simp [List.intercalate]
  | cons piece pieces => simp [intercalate_cons, hx]

end IncludeTrace
