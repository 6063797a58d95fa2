import IncludeTrace.Proofs.Pieces
import IncludeTrace.Scan
import Mathlib.Data.List.DropRight

/-!
# Lines and deliveries

The lines of a file do not depend on the deliveries in which its bytes arrive.
`Brings` says what some deliveries come to: the bytes up to the end of the file,
or up to the first failure.  Bytes fall into lines that end in a newline and a rest
without one (`exists_lines`), and the stream gives these lines one after the other.
What it makes of the rest is decided by how the deliveries end
(`items_of_brings`).

So a file that fails to be read has the directives of the file that ends with the
last whole line before the failure (`Scan.ofDeliveries_of_fault`).
-/

namespace IncludeTrace

open LineStream (newline)

/-- The deliveries bring some bytes, and then the end of the file or a failure.  Nothing follows
the end of the file. -/
inductive Brings : List Delivery → Bytes → Option Cause → Prop where
  | nil : Brings [] [] none
  | eof {ds : List Delivery} : Brings ds [] none → Brings (.bytes [] :: ds) [] none
  | fault {c : Cause} {ds : List Delivery} : Brings (.fault c :: ds) [] (some c)
  | bytes {b b' : Bytes} {ds : List Delivery} {fault : Option Cause} : b ≠ [] →
      Brings ds b' fault → Brings (.bytes b :: ds) (b ++ b') fault
  | interrupted {b : Bytes} {ds : List Delivery} {fault : Option Cause} :
      Brings ds b fault → Brings (.interrupted :: ds) b fault

section Brings

variable {ds : List Delivery} {b : Bytes} {fault : Option Cause}

/-! ## Portions -/

theorem flatten_portions (capacity : Nat) (b : Bytes) :
    (Delivery.portions capacity b).flatten = b := by
  fun_induction Delivery.portions capacity b with
  | case1 b h => simp
  | case2 b h ih => rw [List.flatten_cons, ih, List.take_append_drop]

theorem ne_nil_of_mem_portions {capacity : Nat} {b portion : Bytes} (hb : b ≠ [])
    (h : portion ∈ Delivery.portions capacity b) : portion ≠ [] := by
  fun_induction Delivery.portions capacity b with
  | case1 b hc =>
      cases List.mem_singleton.1 h
      exact hb
  | case2 b hc ih =>
      have hlen : capacity ≠ 0 ∧ capacity < b.length := by omega
      rcases List.mem_cons.1 h with rfl | h
      · intro hnil
        have := congrArg List.length hnil
        simp only [List.length_take, List.length_nil] at this
        omega
      · refine ih ?_ h
        intro hnil
        have := congrArg List.length hnil
        simp only [List.length_drop, List.length_nil] at this
        omega

theorem Brings.append_portions {portions : List Bytes} (hne : ∀ p ∈ portions, p ≠ [])
    (h : Brings ds b fault) :
    Brings (portions.map .bytes ++ ds) (portions.flatten ++ b) fault := by
  induction portions with
  | nil => exact h
  | cons p portions ih =>
      rw [List.flatten_cons, List.append_assoc]
      exact .bytes (hne p List.mem_cons_self) (ih fun q hq => hne q (List.mem_cons_of_mem _ hq))

/-- All bytes may arrive at once. -/
theorem Brings.single (b : Bytes) : Brings [.bytes b] b none := by
  cases b with
  | nil => exact .eof .nil
  | cons c b =>
      have hbytes := Brings.bytes (List.cons_ne_nil c b) .nil
      rwa [List.append_nil] at hbytes

/-- A buffer changes nothing about what arrives. -/
theorem Brings.divide (capacity : Nat) (h : Brings ds b fault) :
    Brings (ds.flatMap (Delivery.divide capacity)) b fault := by
  induction h with
  | nil => exact .nil
  | eof _ ih =>
      have hnil : Delivery.divide capacity (.bytes []) = [.bytes []] := by
        simp [Delivery.divide, Delivery.portions]
      rw [List.flatMap_cons, hnil]
      exact .eof ih
  | fault => exact .fault
  | @bytes b b' ds fault hb _ ih =>
      have hne : ∀ p ∈ Delivery.portions capacity b, p ≠ [] := fun _ => ne_nil_of_mem_portions hb
      have hportions := ih.append_portions hne
      rw [flatten_portions] at hportions
      exact hportions
  | interrupted _ ih => exact .interrupted ih

/-! ## One line -/

variable {line buffer l rest tail : Bytes} {c : Cause}

theorem ne_newline_of_notMem (hl : newline ∉ l) : ∀ c ∈ l, (c != newline) = true := by
  intro c hc
  simpa using ne_of_mem_of_not_mem hc hl

theorem cut_line (hl : newline ∉ l) (rest : Bytes) :
    (l ++ newline :: rest).takeWhile (· != newline) = l ∧
      (l ++ newline :: rest).dropWhile (· != newline) = newline :: rest :=
  cut_iff.2 ⟨rfl, ne_newline_of_notMem hl, bne_self_eq_false _⟩

theorem dropWhile_rest (hbuffer : newline ∉ buffer) : buffer.dropWhile (· != newline) = [] :=
  List.dropWhile_eq_nil_iff.2 (ne_newline_of_notMem hbuffer)

namespace LineStream

/-- A line that is in the buffer is given without a delivery. -/
theorem pull_of_mem (h : Brings ds b fault) (hmem : newline ∈ buffer) (hl : newline ∉ l)
    (heq : buffer ++ b = l ++ newline :: rest) :
    ∃ buffer' ds' b', pull line buffer ds = (.ok (line ++ l ++ [newline]), buffer', ds')
      ∧ Brings ds' b' fault ∧ buffer' ++ b' = rest := by
  obtain ⟨l', buffer', rfl, hl'⟩ := List.eq_append_cons_of_mem hmem
  have htake := congrArg (List.takeWhile (· != newline)) heq
  have hdrop := congrArg (List.dropWhile (· != newline)) heq
  rw [List.append_assoc, List.cons_append] at htake hdrop
  rw [(cut_line hl' _).1, (cut_line hl _).1] at htake
  rw [(cut_line hl' _).2, (cut_line hl _).2] at hdrop
  subst htake
  refine ⟨buffer', ds, b, ?_, h, (List.cons.inj hdrop).2⟩
  unfold pull
  rw [(cut_line hl' _).2, (cut_line hl' _).1]

/-- A line that is not in the buffer begins with the buffer. -/
theorem exists_line_of_notMem (hbuffer : newline ∉ buffer)
    (heq : buffer ++ b = l ++ newline :: rest) :
    ∃ l', l = buffer ++ l' ∧ b = l' ++ newline :: rest := by
  rcases List.append_eq_append_iff.1 heq with h | ⟨l', rfl, hl'⟩
  · exact h
  · cases l' with
    | nil => exact ⟨[], by simp, by simpa using hl'.symm⟩
    | cons c l' =>
        obtain rfl : newline = c := (List.cons.inj hl').1
        exact absurd (by simp) hbuffer

theorem pull_bytes (hbuffer : newline ∉ buffer) (hb : b ≠ []) :
    pull line buffer (.bytes b :: ds) = pull (line ++ buffer) b ds := by
  rw [pull, dropWhile_rest hbuffer]
  exact hb

theorem pull_interrupted (hbuffer : newline ∉ buffer) :
    pull line buffer (.interrupted :: ds) = pull (line ++ buffer) [] ds := by
  rw [pull, dropWhile_rest hbuffer]

/-- A line is given with its newline, and what comes after it is left. -/
theorem pull_line (line : Bytes) (h : Brings ds b fault) (hl : newline ∉ l)
    (heq : buffer ++ b = l ++ newline :: rest) :
    ∃ buffer' ds' b', pull line buffer ds = (.ok (line ++ l ++ [newline]), buffer', ds')
      ∧ Brings ds' b' fault ∧ buffer' ++ b' = rest := by
  -- If no bytes are to come, the newline is in the buffer.
  have hlast {buffer l : Bytes} (heq : buffer ++ [] = l ++ newline :: rest) : newline ∈ buffer := by
    rw [List.append_nil] at heq
    simp [heq]
  induction h generalizing line buffer l with
  | nil => exact pull_of_mem .nil (hlast heq) hl heq
  | eof h ih => exact pull_of_mem (.eof h) (hlast heq) hl heq
  | fault => exact pull_of_mem .fault (hlast heq) hl heq
  | bytes hb h ih =>
      by_cases hmem : newline ∈ buffer
      · exact pull_of_mem (.bytes hb h) hmem hl heq
      · obtain ⟨l, rfl, hrest⟩ := exists_line_of_notMem hmem heq
        rw [pull_bytes hmem hb, ← List.append_assoc line]
        exact ih _ (fun h => hl (List.mem_append_right _ h)) hrest
  | interrupted h ih =>
      by_cases hmem : newline ∈ buffer
      · exact pull_of_mem (.interrupted h) hmem hl heq
      · obtain ⟨l, rfl, hrest⟩ := exists_line_of_notMem hmem heq
        rw [pull_interrupted hmem, ← List.append_assoc line]
        exact ih _ (fun h => hl (List.mem_append_right _ h)) hrest

/-- At the end of the file the rest is given as it is. -/
theorem pull_rest (line : Bytes) (h : Brings ds b none) (hrest : newline ∉ buffer ++ b) :
    ∃ ds', pull line buffer ds = (.ok (line ++ (buffer ++ b)), [], ds') ∧ Brings ds' [] none := by
  generalize hfault : (none : Option Cause) = fault at h
  induction h generalizing line buffer with
  | nil =>
      rw [List.append_nil] at hrest ⊢
      refine ⟨[], ?_, .nil⟩
      rw [pull, dropWhile_rest hrest]
  | @eof ds h ih =>
      rw [List.append_nil] at hrest ⊢
      refine ⟨ds, ?_, h⟩
      rw [pull, dropWhile_rest hrest]
  | fault => cases hfault
  | bytes hb h ih =>
      rw [pull_bytes (fun h => hrest (List.mem_append_left _ h)) hb, ← List.append_assoc line]
      exact ih _ (fun h => hrest (List.mem_append_right _ h)) hfault
  | interrupted h ih =>
      rw [pull_interrupted fun h => hrest (List.mem_append_left _ h), ← List.append_assoc line]
      exact ih _ (fun h => hrest (List.mem_append_right _ h)) hfault

/-- In front of a failure the rest is lost. -/
theorem pull_fault (line : Bytes) (h : Brings ds b (some c)) (hrest : newline ∉ buffer ++ b) :
    ∃ ds', pull line buffer ds = (.error c, [], ds') := by
  generalize hfault : some c = fault at h
  induction h generalizing line buffer with
  | nil => cases hfault
  | eof => cases hfault
  | @fault _ ds =>
      cases hfault
      rw [List.append_nil] at hrest
      refine ⟨ds, ?_⟩
      rw [pull, dropWhile_rest hrest]
  | bytes hb h ih =>
      rw [pull_bytes (fun h => hrest (List.mem_append_left _ h)) hb]
      exact ih _ (fun h => hrest (List.mem_append_right _ h)) hfault
  | interrupted h ih =>
      rw [pull_interrupted fun h => hrest (List.mem_append_left _ h)]
      exact ih _ (fun h => hrest (List.mem_append_right _ h)) hfault

/-! ## All items -/

variable {r r' : LineStream} {i : LineItem}

theorem drain_of_none (h : r.next = (none, r')) (given : List LineItem) :
    (r.drain given).1 = given.reverse := by
  rw [drain]
  split
  · rfl
  · rename_i h'
    cases h.symm.trans h'

theorem drain_of_some (h : r.next = (some i, r')) (given : List LineItem) :
    r.drain given = r'.drain (i :: given) := by
  rw [drain]
  split
  · rename_i h'
    cases h.symm.trans h'
  · rename_i h'
    cases h.symm.trans h'
    rfl

theorem drain_eq (given : List LineItem) (r : LineStream) :
    (r.drain given).1 = given.reverse ++ r.items := by
  -- The items that are given grow, so the induction is on the work left.
  induction hn : r.size using Nat.strongRecOn generalizing r given with
  | _ n ih =>
      subst hn
      rcases h : r.next with ⟨_ | i, r'⟩
      · rw [items, drain_of_none h, drain_of_none h, List.reverse_nil, List.append_nil]
      · have hr' := size_next_lt h
        rw [items, drain_of_some h, drain_of_some h, ih _ hr' _ r' rfl, ih _ hr' [i] r' rfl]
        simp

theorem items_of_none (h : r.next = (none, r')) : r.items = [] := drain_of_none h []

theorem items_of_some (h : r.next = (some i, r')) : r.items = i :: r'.items := by
  rw [items, drain_of_some h, drain_eq]
  rfl

theorem items_of_finished (h : r.finished = true) : r.items = [] :=
  items_of_none (by rw [next, if_pos h])

/-- The text of a line with its newline cut off. -/
def textOf (line : Bytes) : Text := Utf8.decode (chomp line)

/-- What is given for the bytes behind the last newline. -/
def lastItems (rest : Bytes) : Option Cause → List LineItem
  | some c => [.error c]
  | none => if rest = [] then [] else [.ok (textOf rest)]

theorem items_rest (h : Brings ds b fault) (hrest : newline ∉ buffer ++ b) :
    items ⟨buffer, ds, false⟩ = lastItems (buffer ++ b) fault := by
  cases fault with
  | some c =>
      obtain ⟨ds', hpull⟩ := pull_fault [] h hrest
      have hnext : next ⟨buffer, ds, false⟩ = (some (.error c), ⟨[], ds', true⟩) := by
        simp [next, hpull]
      rw [items_of_some hnext, items_of_finished rfl]
      rfl
  | none =>
      obtain ⟨ds', hpull, h'⟩ := pull_rest [] h hrest
      rw [List.nil_append] at hpull
      cases hraw : buffer ++ b with
      | nil =>
          rw [hraw] at hpull
          have hnext : next ⟨buffer, ds, false⟩ = (none, ⟨[], ds', true⟩) := by
            simp [next, hpull]
          exact items_of_none hnext
      | cons c raw =>
          rw [hraw] at hpull
          have hnext : next ⟨buffer, ds, false⟩ =
              (some (.ok (textOf (c :: raw))), ⟨[], ds', false⟩) := by
            simp [next, hpull, textOf]
          -- Nothing follows the end of the file.
          obtain ⟨ds'', hpull', -⟩ := pull_rest [] h' (by simp : newline ∉ [] ++ [])
          have hend : next ⟨[], ds', false⟩ = (none, ⟨[], ds'', true⟩) := by
            simp [next, hpull']
          rw [items_of_some hnext, items_of_none hend]
          rfl

/-- The items of a stream are its lines and what its end makes of the rest. -/
theorem items_of_brings {ls : List Bytes} (h : Brings ds b fault) (hls : ∀ l ∈ ls, newline ∉ l)
    (hrest : newline ∉ rest) (heq : buffer ++ b = ls.flatMap (· ++ [newline]) ++ rest) :
    items ⟨buffer, ds, false⟩ =
      ls.map (fun l => .ok (textOf (l ++ [newline]))) ++ lastItems rest fault := by
  induction ls generalizing buffer ds b with
  | nil =>
      have hb : buffer ++ b = rest := heq
      rw [items_rest h (hb ▸ hrest), hb]
      rfl
  | cons l ls ih =>
      have hl := hls l List.mem_cons_self
      have hsplit : buffer ++ b = l ++ newline :: (ls.flatMap (· ++ [newline]) ++ rest) := by
        simpa using heq
      obtain ⟨buffer', ds', b', hpull, h', heq'⟩ := pull_line [] h hl hsplit
      have hnext : next ⟨buffer, ds, false⟩ =
          (some (.ok (textOf (l ++ [newline]))), ⟨buffer', ds', false⟩) := by
        obtain ⟨c, raw, hraw⟩ := List.exists_cons_of_ne_nil (by simp : l ++ [newline] ≠ [])
        rw [List.nil_append, hraw] at hpull
        simp [next, hpull, hraw, textOf]
      rw [items_of_some hnext, ih h' (fun l hl => hls l (List.mem_cons_of_mem _ hl)) heq']
      rfl

end LineStream

/-! ## Scans -/

/-- The lines of some bytes that end in a newline. -/
def wholeLines (b : Bytes) : Bytes := b.rdropWhile (· != newline)

/-- Bytes fall into lines and a rest. -/
theorem exists_lines (b : Bytes) :
    ∃ (ls : List Bytes) (rest : Bytes), (∀ l ∈ ls, newline ∉ l) ∧ newline ∉ rest ∧
      b = ls.flatMap (· ++ [newline]) ++ rest := by
  induction b with
  | nil => exact ⟨[], [], by simp⟩
  | cons c b ih =>
      obtain ⟨ls, rest, hls, hrest, rfl⟩ := ih
      by_cases hc : c = newline
      · subst hc
        exact ⟨[] :: ls, rest, by simpa using hls, hrest, rfl⟩
      · cases ls with
        | nil => exact ⟨[], c :: rest, by simp, by simp [Ne.symm hc, hrest], rfl⟩
        | cons l ls =>
            refine ⟨(c :: l) :: ls, rest, ?_, hrest, rfl⟩
            intro l' hl'
            rcases List.mem_cons.1 hl' with rfl | hl'
            · simp [Ne.symm hc, hls l List.mem_cons_self]
            · exact hls l' (List.mem_cons_of_mem _ hl')

theorem wholeLines_eq (ls : List Bytes) (hrest : newline ∉ rest) :
    wholeLines (ls.flatMap (· ++ [newline]) ++ rest) = ls.flatMap (· ++ [newline]) := by
  induction rest using List.reverseRecOn with
  | nil =>
      rw [List.append_nil, wholeLines, List.rdropWhile_eq_self_iff]
      intro hne
      rcases List.eq_nil_or_concat ls with rfl | ⟨ls, l, rfl⟩
      · exact absurd rfl hne
      · simp
  | append_singleton rest c ih =>
      have hc : (c != newline) = true := by
        simpa using fun hc : c = newline => hrest (by simp [hc])
      rw [← List.append_assoc, wholeLines, List.rdropWhile_concat, if_pos hc]
      exact ih fun h => hrest (List.mem_append_left _ h)

namespace Scan

/-- The scan of some lines, and a failure behind them if there is one. -/
theorem ofItems_lines (ts : List Text) (fault : Option Cause) :
    ofItems (ts.map .ok ++ fault.toList.map .error) = ⟨locate 1 ts, ts.length, fault⟩ := by
  have hlines : linesOf (ts.map .ok ++ fault.toList.map .error) = ts := by
    induction ts with
    | nil => cases fault <;> rfl
    | cons t ts ih => exact congrArg (t :: ·) ih
  have hfault : faultOf? (ts.map .ok ++ fault.toList.map .error) = fault := by
    induction ts with
    | nil => cases fault <;> rfl
    | cons t ts ih => exact ih (List.cons.inj hlines).2
  rw [ofItems, hlines, hfault]

/-- A file without a byte has no directives. -/
theorem ofDeliveries_of_empty (h : Brings ds [] none) : ofDeliveries ds = ⟨[], 0, none⟩ := by
  have hitems := LineStream.items_rest (h.divide LineStream.capacity) (by simp : newline ∉ [] ++ [])
  rw [ofDeliveries, LineStream.ofDeliveries, hitems]
  rfl

/-- A file that fails to be read has the directives of its whole lines before the failure. -/
theorem ofDeliveries_of_fault {ds' : List Delivery} (h : Brings ds b (some c))
    (h' : Brings ds' (wholeLines b) none) :
    ofDeliveries ds = { ofDeliveries ds' with fault := some c } ∧
      (ofDeliveries ds').fault = none := by
  obtain ⟨ls, rest, hls, hrest, rfl⟩ := exists_lines b
  rw [wholeLines_eq ls hrest] at h'
  have hitems := LineStream.items_of_brings (h.divide LineStream.capacity) hls hrest
    (List.nil_append _)
  have hitems' := LineStream.items_of_brings (h'.divide LineStream.capacity) hls
    (List.not_mem_nil : newline ∉ []) ((List.nil_append _).trans (List.append_nil _).symm)
  have hmap : ls.map (fun l => (.ok (LineStream.textOf (l ++ [newline])) : LineItem)) =
      (ls.map fun l => LineStream.textOf (l ++ [newline])).map .ok := by
    rw [List.map_map]
    rfl
  rw [hmap] at hitems hitems'
  have hscan : ofDeliveries ds = _ := (congrArg ofItems hitems).trans (ofItems_lines _ (some c))
  have hscan' : ofDeliveries ds' = _ := (congrArg ofItems hitems').trans (ofItems_lines _ none)
  rw [hscan, hscan']
  exact ⟨rfl, rfl⟩

/-- What fails at the first read has no directives. -/
theorem directives_of_fault (c : Cause) (ds : List Delivery) :
    (ofDeliveries (.fault c :: ds)).directives = [] := by
  have hempty : Brings [] (wholeLines []) none := .nil
  rw [(ofDeliveries_of_fault .fault hempty).1, ofDeliveries_of_empty .nil]

end Scan

end Brings

end IncludeTrace
