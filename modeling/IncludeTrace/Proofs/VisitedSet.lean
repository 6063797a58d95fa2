import IncludeTrace.Proofs.Move
import Mathlib.Data.Finset.Card
import Mathlib.Data.List.Sort

/-!
# Visited paths as a set

The visited paths are kept as a list of spellings, and they are meant as a set of
lists of components.  This module says that no sequence of calls can tell the
difference.  What a call answers depends on the paths that were inserted before it,
and on these only through the set of their components (`keys`) and the spelling that
each of them had first (`firstSpelling?`).  `Answered` gives the answers.

The listing is in the order of components.  `Component.Before` states this order
rule by rule, and lists of components are ordered by the first place where they
differ, with a list before its continuations.  This is what the comparison computes
(`Component.compare_iff_lex`), and the comparison is a total order, because
components are compared by their ranks and then by their segments
(`Component.order_eq`).  Two lists that are strictly increasing and have the same
members are equal, so a listing depends on the set alone, apart from the spellings.
-/

namespace IncludeTrace

/-! ## The order of components -/

/-- Lists are compared by the first place where they differ. -/
theorem compare_eq_lt_iff_lex {α : Type} [Ord α] [Std.LawfulEqOrd α] {r : α → α → Prop}
    (hr : ∀ a b, compare a b = .lt ↔ r a b) (l l' : List α) :
    compare l l' = .lt ↔ List.Lex r l l' := by
  induction l generalizing l' with
  | nil =>
      cases l' with
      | nil => simp
      | cons b l' => simp [List.compare_nil_cons]
  | cons a l ih =>
      cases l' with
      | nil => simp [List.compare_cons_nil]
      | cons b l' =>
          rw [List.compare_cons_cons, Ordering.then_eq_lt, List.cons_lex_cons_iff, hr, ih,
            Std.compare_eq_iff_eq]

namespace Component

/-- The order of components: the root, `here`, `up`, and then names by their bytes. -/
inductive Before : Component → Component → Prop where
  | root_here : Before .root .here
  | root_up : Before .root .up
  | root_name (n : Bytes) : Before .root (.name n)
  | here_up : Before .here .up
  | here_name (n : Bytes) : Before .here (.name n)
  | up_name (n : Bytes) : Before .up (.name n)
  | name {m n : Bytes} : List.Lex (· < ·) m n → Before (.name m) (.name n)

/-- Components are compared by their ranks, and those of one rank by their segments. -/
theorem order_eq : order = compareLex (compareOn rank) (compareOn segment) := by
  funext c d
  cases c <;> cases d <;> rfl

instance : Std.TransOrd Component :=
  have : Std.TransCmp order := by
    rw [order_eq]
    infer_instance
  this

theorem eq_of_rank_of_segment {c d : Component} (hrank : c.rank = d.rank)
    (hsegment : c.segment = d.segment) : c = d := by
  cases c <;> cases d <;> simp_all [rank, segment]

instance : Std.LawfulEqOrd Component where
  compare_self := Std.ReflCmp.compare_self
  eq_of_compare {c d} h := by
    have h' : compareLex (compareOn rank) (compareOn segment) c d = .eq := order_eq ▸ h
    obtain ⟨hrank, hsegment⟩ := Ordering.then_eq_eq.1 h'
    exact eq_of_rank_of_segment (Std.compare_eq_iff_eq.1 hrank) (Std.compare_eq_iff_eq.1 hsegment)

theorem compare_name_iff {m n : Bytes} :
    compare (Component.name m) (.name n) = .lt ↔ List.Lex (· < ·) m n :=
  compare_eq_lt_iff_lex (fun _ _ => Std.compare_eq_lt) m n

theorem before_of_compare {c d : Component} (h : compare c d = .lt) : Before c d := by
  cases c with
  | root =>
      cases d with
      | root => cases h
      | here => exact .root_here
      | up => exact .root_up
      | name n => exact .root_name n
  | here =>
      cases d with
      | root => cases h
      | here => cases h
      | up => exact .here_up
      | name n => exact .here_name n
  | up =>
      cases d with
      | root => cases h
      | here => cases h
      | up => cases h
      | name n => exact .up_name n
  | name m =>
      cases d with
      | root => cases h
      | here => cases h
      | up => cases h
      | name n => exact .name (compare_name_iff.1 h)

theorem Before.compare_eq {c d : Component} (h : Before c d) : compare c d = .lt := by
  cases h with
  | root_here => rfl
  | root_up => rfl
  | root_name n => rfl
  | here_up => rfl
  | here_name n => rfl
  | up_name n => rfl
  | name h => exact compare_name_iff.2 h

/-- The comparison of lists of components is the order by the first components that differ. -/
theorem compare_iff_lex (cs ds : List Component) : compare cs ds = .lt ↔ List.Lex Before cs ds :=
  compare_eq_lt_iff_lex (fun _ _ => ⟨before_of_compare, Before.compare_eq⟩) cs ds

instance : Std.Irrefl (List.Lex Before) where
  irrefl cs h := by
    rw [← compare_iff_lex, Std.ReflOrd.compare_self] at h
    cases h

instance : Std.Antisymm (List.Lex Before) where
  antisymm cs ds h h' := by
    rw [← compare_iff_lex] at h h'
    exact absurd h' (Std.OrientedCmp.not_lt_of_lt h)

end Component

namespace Path

/-- The order of paths: by the first components that differ, and a path before those that it is the
beginning of. -/
def Before (p q : Path) : Prop := List.Lex Component.Before p.components q.components

theorem atMost_trans (p q r : Path) (h : p.atMost q = true) (h' : q.atMost r = true) :
    p.atMost r = true :=
  Std.TransOrd.isLE_trans h h'

theorem atMost_total (p q : Path) : (p.atMost q || q.atMost p) = true := by
  have hswap : compare q.components p.components = (compare p.components q.components).swap :=
    Std.OrientedCmp.eq_swap
  rw [atMost, atMost, hswap]
  cases compare p.components q.components <;> rfl

/-- Of two paths with different components, the smaller one comes before the other. -/
theorem before_of_atMost {p q : Path} (h : p.atMost q = true)
    (hne : p.components ≠ q.components) : p.Before q := by
  rcases Ordering.isLE_iff_eq_lt_or_eq_eq.1 h with hlt | heq
  · exact (Component.compare_iff_lex _ _).1 hlt
  · exact absurd (Std.compare_eq_iff_eq.1 heq) hne

end Path

namespace Visited

/-! ## Calls and their answers -/

/-- A call on a set of visited paths. -/
inductive Call where
  /-- Inserts a path. -/
  | insert (p : Path)
  /-- Asks for a path. -/
  | contains (p : Path)
  /-- Asks for the number of paths. -/
  | size
  /-- Asks whether there is no path. -/
  | isEmpty
  /-- Asks for the paths in their order. -/
  | sorted

/-- The paths a call inserts, which is one or none. -/
def Call.inserted : Call → List Path
  | .insert p => [p]
  | _ => []

/-- The paths some calls insert, oldest first. -/
def inserted (calls : List Call) : List Path := calls.flatMap Call.inserted

/-- The answer to a call. -/
inductive Answer where
  /-- Whether it is so.  For an insertion, whether the path is new. -/
  | truth (b : Bool)
  /-- A number. -/
  | number (n : Nat)
  /-- A list of paths. -/
  | paths (ps : List Path)

/-- What a call answers, and the set after it. -/
def answer (v : Visited) : Call → Answer × Visited
  | .insert p => (.truth !(v.containsThenInsert p).1, (v.containsThenInsert p).2)
  | .contains p => (.truth (v.contains p), v)
  | .size => (.number v.size, v)
  | .isEmpty => (.truth v.isEmpty, v)
  | .sorted => (.paths v.sorted, v)

/-- What some calls answer, one after the other. -/
def answers (v : Visited) : List Call → List Answer
  | [] => []
  | call :: calls => (v.answer call).1 :: (v.answer call).2.answers calls

/-- The set after some calls. -/
def after (v : Visited) (calls : List Call) : Visited :=
  calls.foldl (fun v call => (v.answer call).2) v

/-- The set that some paths make up. -/
def keys (ps : List Path) : Finset (List Component) := (ps.map Path.components).toFinset

/-- The first of some paths that has the given components. -/
def firstSpelling? (ps : List Path) (cs : List Component) : Option Path :=
  ps.find? fun p => p.components == cs

/-- What a call is to answer after the insertion of some paths. -/
inductive Answered (ps : List Path) : Call → Answer → Prop where
  | insert {p : Path} {b : Bool} : (b = true ↔ ∀ q ∈ ps, q.components ≠ p.components) →
      Answered ps (.insert p) (.truth b)
  | contains {p : Path} {b : Bool} : (b = true ↔ ∃ q ∈ ps, q.components = p.components) →
      Answered ps (.contains p) (.truth b)
  | size : Answered ps .size (.number (keys ps).card)
  | isEmpty {b : Bool} : (b = true ↔ keys ps = ∅) → Answered ps .isEmpty (.truth b)
  | sorted {qs : List Path} : qs.Pairwise Path.Before →
      (∀ q, q ∈ qs ↔ firstSpelling? ps q.components = some q) → Answered ps .sorted (.paths qs)

/-- The set holds the paths that were inserted, each as it was spelled first, and none of them
twice. -/
structure Holds (v : Visited) (ps : List Path) : Prop where
  spelling : ∀ cs, firstSpelling? v.paths cs = firstSpelling? ps cs
  distinct : (v.paths.map Path.components).Nodup

section Holds

variable {v : Visited} {ps : List Path} {p q : Path} {cs : List Component}

theorem mem_keys : cs ∈ keys ps ↔ ∃ p ∈ ps, p.components = cs := by
  simp [keys]

theorem isSome_firstSpelling? : (firstSpelling? ps cs).isSome = true ↔ cs ∈ keys ps := by
  simp [firstSpelling?, mem_keys]

/-- Where no components come twice, every path is the first with its components. -/
theorem mem_iff_of_distinct (h : (ps.map Path.components).Nodup) :
    p ∈ ps ↔ firstSpelling? ps p.components = some p := by
  refine ⟨fun hp => ?_, List.mem_of_find?_eq_some⟩
  obtain ⟨q, hq⟩ := Option.isSome_iff_exists.1
    (isSome_firstSpelling?.2 (mem_keys.2 ⟨p, hp, rfl⟩))
  have hsame : q.components = p.components := by
    simpa using List.find?_some hq
  rw [hq, List.inj_on_of_nodup_map h (List.mem_of_find?_eq_some hq) hp hsame]

theorem contains_iff : v.contains p = true ↔ p.components ∈ keys v.paths := by
  simp [contains, mem_keys]

theorem Holds.keys_eq (h : Holds v ps) : keys v.paths = keys ps := by
  ext cs
  rw [← isSome_firstSpelling?, h.spelling, isSome_firstSpelling?]

theorem Holds.contains_iff (h : Holds v ps) :
    v.contains p = true ↔ ∃ q ∈ ps, q.components = p.components := by
  rw [Visited.contains_iff, h.keys_eq, mem_keys]

theorem Holds.size_eq (h : Holds v ps) : v.size = (keys ps).card := by
  rw [← h.keys_eq, keys, List.toFinset_card_of_nodup h.distinct, List.length_map]
  rfl

theorem Holds.isEmpty_iff (h : Holds v ps) : v.isEmpty = true ↔ keys ps = ∅ := by
  rw [← h.keys_eq]
  simp [isEmpty, keys]

theorem Holds.mem_sorted_iff (h : Holds v ps) :
    q ∈ v.sorted ↔ firstSpelling? ps q.components = some q := by
  rw [sorted, List.mem_mergeSort, mem_iff_of_distinct h.distinct, h.spelling]

/-- The listing is strictly increasing. -/
theorem Holds.pairwise_sorted (h : Holds v ps) : v.sorted.Pairwise Path.Before := by
  have hsorted : v.sorted.Pairwise fun p q => p.atMost q = true :=
    List.pairwise_mergeSort Path.atMost_trans Path.atMost_total v.paths
  have hperm : v.sorted.Perm v.paths := List.mergeSort_perm v.paths Path.atMost
  have hdistinct : v.sorted.Pairwise fun p q => p.components ≠ q.components :=
    List.pairwise_map.1 ((hperm.map _).nodup_iff.2 h.distinct)
  exact (hsorted.and hdistinct).imp fun ⟨hle, hne⟩ => Path.before_of_atMost hle hne

theorem mem_map_sorted : cs ∈ v.sorted.map Path.components ↔ cs ∈ keys v.paths := by
  simp [sorted, mem_keys]

/-- The components of a listing depend on the set alone. -/
theorem Holds.map_sorted_eq {w : Visited} {qs : List Path} (hv : Holds v ps) (hw : Holds w qs)
    (hkeys : keys ps = keys qs) : v.sorted.map Path.components = w.sorted.map Path.components := by
  have hvlist : (v.sorted.map Path.components).Pairwise (List.Lex Component.Before) :=
    List.pairwise_map.2 hv.pairwise_sorted
  have hwlist : (w.sorted.map Path.components).Pairwise (List.Lex Component.Before) :=
    List.pairwise_map.2 hw.pairwise_sorted
  refine hvlist.eq_of_mem_iff hwlist fun cs => ?_
  rw [mem_map_sorted, mem_map_sorted, hv.keys_eq, hw.keys_eq, hkeys]

/-! ## Sequences of calls -/

theorem Holds.empty : Holds empty [] := ⟨fun _ => rfl, List.nodup_nil⟩

theorem firstSpelling?_append (ps qs : List Path) (cs : List Component) :
    firstSpelling? (ps ++ qs) cs = (firstSpelling? ps cs).or (firstSpelling? qs cs) :=
  List.find?_append

theorem Holds.insert (h : Holds v ps) (p : Path) : Holds (v.insert p) (ps ++ [p]) := by
  cases hp : v.contains p with
  | true =>
      rw [insert_of_contains hp]
      refine ⟨fun cs => ?_, h.distinct⟩
      rw [firstSpelling?_append, h.spelling]
      cases hcs : firstSpelling? ps cs with
      | some q => rfl
      | none =>
          -- The components of `p` are among those that have a spelling.
          have hne : p.components ≠ cs := by
            rintro rfl
            have hsome := isSome_firstSpelling?.2 (mem_keys.2 (h.contains_iff.1 hp))
            rw [hcs] at hsome
            cases hsome
          simp [firstSpelling?, hne]
  | false =>
      have hnew : p.components ∉ v.paths.map Path.components := by
        intro hmem
        rw [Visited.contains_iff.2 (List.mem_toFinset.2 hmem)] at hp
        cases hp
      refine ⟨fun cs => ?_, ?_⟩
      · rw [paths_insert_of_not_contains hp, firstSpelling?_append, firstSpelling?_append,
          h.spelling]
      · rw [paths_insert_of_not_contains hp, List.map_append, List.map_singleton,
          ← List.concat_eq_append]
        exact h.distinct.concat hnew

/-- After a call the set holds what was inserted. -/
theorem Holds.answer (h : Holds v ps) (call : Call) :
    Holds (v.answer call).2 (ps ++ call.inserted) := by
  have hsame : Holds v (ps ++ []) := by rwa [List.append_nil]
  cases call with
  | insert p => exact h.insert p
  | contains p => exact hsame
  | size => exact hsame
  | isEmpty => exact hsame
  | sorted => exact hsame

theorem Holds.after (h : Holds v ps) (calls : List Call) :
    Holds (v.after calls) (ps ++ inserted calls) := by
  induction calls generalizing v ps with
  | nil => rwa [inserted, List.flatMap_nil, List.append_nil]
  | cons call calls ih =>
      rw [inserted, List.flatMap_cons, ← List.append_assoc]
      exact ih (h.answer call)

/-- A call is answered according to what was inserted. -/
theorem Holds.answered (h : Holds v ps) (call : Call) : Answered ps call (v.answer call).1 := by
  cases call with
  | insert p =>
      refine .insert ?_
      rw [containsThenInsert_fst, Bool.not_eq_true', ← Bool.not_eq_true, h.contains_iff]
      simp
  | contains p => exact .contains h.contains_iff
  | size =>
      rw [Visited.answer, h.size_eq]
      exact .size
  | isEmpty => exact .isEmpty h.isEmpty_iff
  | sorted => exact .sorted h.pairwise_sorted fun q => h.mem_sorted_iff

/-- Every call is answered by the set that the calls before it lead to. -/
theorem getElem?_answers (v : Visited) (calls : List Call) (i : Nat) :
    (v.answers calls)[i]? =
      calls[i]?.map fun call => ((v.after (calls.take i)).answer call).1 := by
  induction calls generalizing v i with
  | nil => rfl
  | cons call calls ih =>
      cases i with
      | zero => rfl
      | succ i => exact ih (v.answer call).2 i

end Holds

/-- A set of visited paths that was empty at first, whatever calls are made.  Every call is answered
as a set of lists of components would, with the first spelling of each in the listing.  And the
listings after two sequences of calls agree in their components at every position if the calls
inserted the same set, in any order and with any repetitions. -/
theorem calls_answered_by_set (calls : List Call) :
    (∀ (i : Nat) (call : Call), calls[i]? = some call →
        ∃ a, (empty.answers calls)[i]? = some a ∧ Answered (inserted (calls.take i)) call a)
      ∧ ∀ calls' : List Call, keys (inserted calls) = keys (inserted calls') →
        (empty.after calls).sorted.map Path.components =
          (empty.after calls').sorted.map Path.components := by
  have hafter (calls : List Call) : Holds (empty.after calls) (inserted calls) :=
    Holds.empty.after calls
  refine ⟨fun i call hcall => ⟨_, ?_, (hafter (calls.take i)).answered call⟩,
    fun calls' hkeys => (hafter calls).map_sorted_eq (hafter calls') hkeys⟩
  rw [getElem?_answers, hcall, Option.map_some]

/-- Insertions of seven paths, of which two have the same components, and a listing. -/
def mixedCalls : List Call :=
  (["a//b", "./a", "..", "a/b/.", "/", "a", "."].map fun t => .insert (.ofText t.toList)) ++
    [.sorted]

/-- The listing has the first of two spellings and not the second, and its components do not change
if the insertions are made in the opposite order. -/
theorem calls_answered_by_set_mixed :
    mixedCalls[7]? = some .sorted
      ∧ (∃ qs, (empty.answers mixedCalls)[7]? = some (.paths qs) ∧ qs.Pairwise Path.Before ∧
        .ofText "a//b".toList ∈ qs ∧ .ofText "a/b/.".toList ∉ qs)
      ∧ keys (inserted mixedCalls) = keys (inserted mixedCalls.reverse)
      ∧ (empty.after mixedCalls).sorted.map Path.components =
        (empty.after mixedCalls.reverse).sorted.map Path.components := by
  have hcall : mixedCalls[7]? = some .sorted := rfl
  have hkeys : keys (inserted mixedCalls) = keys (inserted mixedCalls.reverse) := by decide +kernel
  obtain ⟨hanswers, hlistings⟩ := calls_answered_by_set mixedCalls
  obtain ⟨a, ha, hanswered⟩ := hanswers 7 .sorted hcall
  cases hanswered with
  | sorted hpairwise hmem =>
      exact ⟨hcall, ⟨_, ha, hpairwise, (hmem _).2 (by decide +kernel),
        mt (hmem _).1 (by decide +kernel)⟩, hkeys, hlistings _ hkeys⟩

end Visited

end IncludeTrace
