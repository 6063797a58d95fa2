import IncludeTrace.Proofs.Lines

/-!
# The lines of some bytes

A stream of lines sees a file delivery by delivery.  Here its lines are said in terms of
all the bytes together: they are cut at the newlines, a carriage return at the end of
a cut piece is dropped, and what stands behind the last newline is a line of its own,
unless there is nothing or the reading fails behind it (`Content.lines`).

The stream gives these lines and then the failure, if there is one.  Asked again it
gives nothing, however often it is asked (`LineStream.call_eq`).  So the deliveries make no
difference: neither where they are cut, nor the interruptions between them, nor the size
of the buffer.  The scan of a file is that of its lines.
-/

namespace IncludeTrace

open LineStream (newline carriageReturn)

/-! ## Bytes and lines -/

namespace Content

/-- A line without the carriage return at its end. -/
def withoutReturn (l : Bytes) : Bytes := if l.getLast? = some carriageReturn then l.dropLast else l

/-- The lines that end in a newline. -/
def terminated (b : Bytes) : List Text :=
  (b.splitOn newline).dropLast.map fun l => Utf8.decode (withoutReturn l)

/-- The line behind the last newline, unless nothing is there. -/
def unterminated (b : Bytes) : List Text :=
  let rest := (b.splitOn newline).getLastD []
  if rest = [] then [] else [Utf8.decode rest]

/-- The lines that can be read of some bytes, with the end of the file or a failure behind them. -/
def lines (b : Bytes) : Option Cause → List Text
  | none => terminated b ++ unterminated b
  | some _ => terminated b

/-- What reading the bytes gives. -/
def items (b : Bytes) (fault : Option Cause) : List LineItem :=
  (lines b fault).map .ok ++ fault.toList.map .error

end Content

namespace LineStream

variable {rest b : Bytes} {ls : List Bytes} {ds : List Delivery} {fault : Option Cause}
  {r r' : LineStream}

theorem textOf_terminated (l : Bytes) :
    textOf (l ++ [newline]) = Utf8.decode (Content.withoutReturn l) := by
  simp [textOf, chomp, Content.withoutReturn]

theorem textOf_unterminated (h : newline ∉ rest) : textOf rest = Utf8.decode rest := by
  have hlast : rest.getLast? ≠ some newline := fun hlast => h (List.mem_of_getLast? hlast)
  rw [textOf, chomp, if_neg hlast]

/-- Lines and a rest are cut at the newlines. -/
theorem terminated_eq (hls : ∀ l ∈ ls, newline ∉ l) (hrest : newline ∉ rest) :
    Content.terminated (ls.flatMap (· ++ [newline]) ++ rest) =
      ls.map fun l => textOf (l ++ [newline]) := by
  rw [Content.terminated, splitOn_terminated hls hrest, List.dropLast_concat]
  exact List.map_congr_left fun l _ => (textOf_terminated l).symm

theorem unterminated_eq (hls : ∀ l ∈ ls, newline ∉ l) (hrest : newline ∉ rest) :
    Content.unterminated (ls.flatMap (· ++ [newline]) ++ rest) =
      if rest = [] then [] else [textOf rest] := by
  rw [Content.unterminated, splitOn_terminated hls hrest, List.getLastD_concat,
    textOf_unterminated hrest]

/-- The items of a stream are those of the bytes that its deliveries bring. -/
theorem items_of_deliveries (h : Brings ds b fault) :
    (ofDeliveries ds).items = Content.items b fault := by
  obtain ⟨ls, rest, hls, hrest, rfl⟩ := exists_lines b
  rw [ofDeliveries, items_of_brings (h.divide capacity) hls hrest (List.nil_append _),
    Content.items]
  cases fault with
  | some c =>
      rw [Content.lines, terminated_eq hls hrest, List.map_map]
      rfl
  | none =>
      rw [Content.lines, terminated_eq hls hrest, unterminated_eq hls hrest, List.map_append,
        List.map_map, lastItems]
      split <;> simp

/-! ## Calls -/

/-- What a stream gives when it is asked after `n` times. -/
def call : Nat → LineStream → Option LineItem
  | 0, r => r.next.1
  | n + 1, r => call n r.next.2

theorem finished_of_none (h : r.next = (none, r')) : r'.finished = true := by
  unfold next at h
  split at h
  · rename_i hfinished
    cases h
    exact hfinished
  · split at h
    · cases h
    · cases h
      rfl
    · cases h

theorem call_of_finished (h : r.finished = true) (n : Nat) : r.call n = none := by
  have hnext : r.next = (none, r) := by rw [next, if_pos h]
  induction n with
  | zero => rw [call, hnext]
  | succ n ih => rw [call, hnext, ih]

/-- The calls give the items one after the other, and nothing behind them. -/
theorem call_eq (n : Nat) (r : LineStream) : r.call n = r.items[n]? := by
  induction n generalizing r with
  | zero =>
      rcases h : r.next with ⟨_ | i, r'⟩
      · rw [call, h, items_of_none h]
        rfl
      · rw [call, h, items_of_some h]
        rfl
  | succ n ih =>
      rcases h : r.next with ⟨_ | i, r'⟩
      · rw [call, h, call_of_finished (finished_of_none h), items_of_none h]
        rfl
      · rw [call, h, ih, items_of_some h, List.getElem?_cons_succ]

end LineStream

theorem length_le_of_terminated (ls : List Bytes) :
    ls.length ≤ (ls.flatMap (· ++ [newline])).length := by
  induction ls with
  | nil => exact Nat.le_refl 0
  | cons l ls ih =>
      simp only [List.flatMap_cons, List.length_append, List.length_cons]
      omega

/-- A line has a newline at its end, or a byte behind the last newline. -/
theorem Content.length_lines_le (b : Bytes) (fault : Option Cause) :
    (lines b fault).length ≤ b.length := by
  obtain ⟨ls, rest, hls, hrest, rfl⟩ := exists_lines b
  have hwhole := length_le_of_terminated ls
  have hrests : (if rest = [] then [] else [LineStream.textOf rest]).length ≤ rest.length := by
    cases rest with
    | nil => exact Nat.le_refl 0
    | cons c rest => exact Nat.succ_le_succ (Nat.zero_le _)
  cases fault with
  | some c =>
      rw [lines, LineStream.terminated_eq hls hrest, List.length_map, List.length_append]
      omega
  | none =>
      rw [lines, LineStream.terminated_eq hls hrest, LineStream.unterminated_eq hls hrest,
        List.length_append, List.length_map, List.length_append]
      omega

/-! ## Scans -/

namespace Scan

variable {first : Nat} {lines : List Text} {x : Located}

/-- A directive is found on the line whose number it has. -/
theorem mem_locate : x ∈ locate first lines ↔
    first ≤ x.lineNo ∧ ∃ line, lines[x.lineNo - first]? = some line ∧
      Directive.ofLine? line = some x.directive := by
  simp only [locate, List.mem_filterMap, Prod.exists, List.mk_mem_zipIdx_iff_le_and_getElem?_sub,
    Option.map_eq_some_iff]
  constructor
  · rintro ⟨line, n, ⟨hn, hline⟩, d, hd, rfl⟩
    exact ⟨hn, line, hline, hd⟩
  · rintro ⟨hn, line, hline, hd⟩
    exact ⟨line, x.lineNo, ⟨hn, hline⟩, x.directive, hd, rfl⟩

theorem locate_cons (first : Nat) (line : Text) (lines : List Text) :
    locate first (line :: lines) =
      ((Directive.ofLine? line).map (⟨first, ·⟩)).toList ++ locate (first + 1) lines := by
  cases h : Directive.ofLine? line <;> simp [locate, List.zipIdx_cons, h]

/-- The directives are found in the order of the lines. -/
theorem pairwise_locate (first : Nat) (lines : List Text) :
    (locate first lines).Pairwise fun x y => x.lineNo < y.lineNo := by
  induction lines generalizing first with
  | nil => exact .nil
  | cons line lines ih =>
      rw [locate_cons]
      cases Directive.ofLine? line with
      | none => exact ih (first + 1)
      | some d => exact .cons (fun x hx => (mem_locate.1 hx).1) (ih (first + 1))

theorem ofDeliveries_eq {ds : List Delivery} {b : Bytes} {fault : Option Cause}
    (h : Brings ds b fault) :
    ofDeliveries ds =
      ⟨locate 1 (Content.lines b fault), (Content.lines b fault).length, fault⟩ := by
  rw [ofDeliveries, LineStream.items_of_deliveries h]
  exact ofItems_lines _ _

/-- Every directive has the number of a line that was read. -/
theorem lineNo_le_linesRead {ds : List Delivery} (hx : x ∈ (ofDeliveries ds).directives) :
    1 ≤ x.lineNo ∧ x.lineNo ≤ (ofDeliveries ds).linesRead := by
  obtain ⟨hfirst, line, hline, -⟩ := mem_locate.1 hx
  have hlt := (List.getElem?_eq_some_iff.1 hline).1
  exact ⟨hfirst, by simp only [ofDeliveries, ofItems]; omega⟩

/-- A line has one directive at most. -/
theorem length_directives_le (ds : List Delivery) :
    (ofDeliveries ds).directives.length ≤ (ofDeliveries ds).linesRead := by
  refine (List.length_filterMap_le ..).trans ?_
  rw [List.length_zipIdx]
  exact Nat.le_refl _

/-- There are no more lines than bytes. -/
theorem linesRead_le_length {ds : List Delivery} {b : Bytes} {fault : Option Cause}
    (h : Brings ds b fault) : (ofDeliveries ds).linesRead ≤ b.length := by
  rw [ofDeliveries_eq h]
  exact Content.length_lines_le b fault

/-- Deliveries that bring some bytes, and then the end of the file or a failure.  Call for call, the
stream of lines gives the lines of these bytes, then the failure if there is one, and then nothing.
The scan counts the lines, has the directive of every line that has one, in the order of the lines,
and tells the failure. -/
theorem reading_of_deliveries {ds : List Delivery} {b : Bytes} {fault : Option Cause}
    (h : Brings ds b fault) :
    (LineStream.ofDeliveries ds).items = (Content.lines b fault).map .ok ++ fault.toList.map .error
      ∧ (∀ n, (LineStream.ofDeliveries ds).call n =
        ((Content.lines b fault).map .ok ++ fault.toList.map .error)[n]?)
      ∧ (ofDeliveries ds).linesRead = (Content.lines b fault).length
      ∧ (∀ x, x ∈ (ofDeliveries ds).directives ↔
        1 ≤ x.lineNo ∧ ∃ line, (Content.lines b fault)[x.lineNo - 1]? = some line
          ∧ Directive.ofLine? line = some x.directive)
      ∧ ((ofDeliveries ds).directives.Pairwise fun x y => x.lineNo < y.lineNo)
      ∧ (ofDeliveries ds).fault = fault := by
  have hitems := LineStream.items_of_deliveries h
  refine ⟨hitems, fun n => ?_, ?_⟩
  · rw [LineStream.call_eq, hitems, Content.items]
  · rw [ofDeliveries_eq h]
    exact ⟨rfl, fun x => mem_locate, pairwise_locate _ _, rfl⟩

/-- The reads are cut inside of a character, between a carriage return and its newline, and inside
of the last line, which is lost by the failure. -/
def cutReads : List Delivery :=
  [.bytes (Utf8.encode "#include \"a".toList ++ [0xC3]), .interrupted,
    .bytes ([0xA9] ++ Utf8.encode ".h\"\r".toList), .interrupted, .interrupted,
    .bytes (Utf8.encode "\nx\r\r\n#include".toList), .fault (.system 5)]

/-- What the reads bring. -/
def cutContent : Bytes := Utf8.encode "#include \"aé.h\"\r\nx\r\r\n#include".toList

theorem reading_of_deliveries_cut :
    Brings cutReads cutContent (some (.system 5))
      ∧ Content.lines cutContent (some (.system 5)) = ["#include \"aé.h\"".toList, "x\r".toList]
      ∧ (LineStream.ofDeliveries cutReads).call 2 = some (.error (.system 5))
      ∧ (LineStream.ofDeliveries cutReads).call 3 = none
      ∧ ⟨1, "#include \"aé.h\"".toList, "aé.h".toList, .quoted⟩ ∈
        (ofDeliveries cutReads).directives := by
  have hcontent : cutContent = (Utf8.encode "#include \"a".toList ++ [0xC3]) ++
      (([0xA9] ++ Utf8.encode ".h\"\r".toList) ++
        (Utf8.encode "\nx\r\r\n#include".toList ++ [])) := by decide +kernel
  have hbrings : Brings cutReads cutContent (some (.system 5)) := by
    rw [hcontent]
    exact .bytes (by simp) (.interrupted (.bytes (by simp) (.interrupted (.interrupted
      (.bytes (by decide +kernel) .fault)))))
  have hlines : Content.lines cutContent (some (.system 5)) =
      ["#include \"aé.h\"".toList, "x\r".toList] := by decide +kernel
  obtain ⟨-, hcall, -, hdirectives, -⟩ := reading_of_deliveries hbrings
  rw [hlines] at hcall hdirectives
  refine ⟨hbrings, hlines, hcall 2, hcall 3, (hdirectives _).2 ⟨Nat.le_refl 1, _, rfl, ?_⟩⟩
  decide +kernel

end Scan

end IncludeTrace
