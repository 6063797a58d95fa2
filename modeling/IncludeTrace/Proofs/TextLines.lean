import IncludeTrace.Proofs.Content
import IncludeTrace.Proofs.Decoding

/-!
# The lines of a text

A stream of lines cuts the bytes of a file first, and decodes each line on its own.
Here the whole file is decoded first, and its text is cut (`Text.lines`).  Both ways
lead to the same lines (`Content.lines_eq`).  A newline and a carriage return are bytes
that stand for themselves.  They break off a character that was begun in front of
them, and they are not part of what is replaced.

So it makes no difference to a line what is broken on the others.  If the bytes of one
line are exchanged, all other lines stay as they are and keep their numbers
(`OnLine.getElem?_lines`).
-/

namespace IncludeTrace

open LineStream (newline carriageReturn)

/-! ## Cutting a text -/

namespace Text

/-- A line without the carriage return at its end. -/
def withoutReturn (t : Text) : Text := if t.getLast? = some '\r' then t.dropLast else t

/-- The lines that end in a newline. -/
def terminated (t : Text) : List Text := (t.splitOn '\n').dropLast.map withoutReturn

/-- The line behind the last newline, unless nothing is there. -/
def unterminated (t : Text) : List Text :=
  let rest := (t.splitOn '\n').getLastD []
  if rest = [] then [] else [rest]

/-- The lines that can be read of a text, with the end of the file or a failure behind them. -/
def lines (t : Text) : Option Cause → List Text
  | none => terminated t ++ unterminated t
  | some _ => terminated t

end Text

namespace Content

variable {l : Bytes}

theorem newline_notMem_decode (h : newline ∉ l) : '\n' ∉ Utf8.decode l :=
  fun hmem => h (Utf8.mem_of_mem_decode (b := newline) (by decide) hmem)

/-- The pieces between newlines are decoded apart. -/
theorem splitOn_decode (b : Bytes) :
    (Utf8.decode b).splitOn '\n' = (b.splitOn newline).map Utf8.decode := by
  obtain ⟨ls, rest, hls, hrest, rfl⟩ := exists_lines b
  have hdecode : Utf8.decode (ls.flatMap (· ++ [newline]) ++ rest) =
      (ls.map Utf8.decode).flatMap (· ++ ['\n']) ++ Utf8.decode rest := by
    clear hls
    induction ls with
    | nil => rfl
    | cons l ls ih =>
        rw [List.flatMap_cons, List.append_assoc, List.append_assoc, List.singleton_append,
          Utf8.decode_append_cons (by decide), ih]
        simp [newline]
  have hls' : ∀ t ∈ ls.map Utf8.decode, '\n' ∉ t := by
    intro t ht
    obtain ⟨l, hl, rfl⟩ := List.mem_map.1 ht
    exact newline_notMem_decode (hls l hl)
  rw [hdecode, splitOn_terminated hls' (newline_notMem_decode hrest), splitOn_terminated hls hrest,
    List.map_append]
  rfl

/-- A carriage return at the end of a line can be dropped before or after decoding. -/
theorem decode_withoutReturn (l : Bytes) :
    Utf8.decode (withoutReturn l) = Text.withoutReturn (Utf8.decode l) := by
  by_cases h : l.getLast? = some carriageReturn
  · obtain ⟨l, rfl⟩ := List.getLast?_eq_some_iff.1 h
    have hdecode : Utf8.decode (l ++ [carriageReturn]) = Utf8.decode l ++ ['\r'] :=
      Utf8.decode_concat (by decide) l
    rw [withoutReturn, if_pos h, List.dropLast_concat, hdecode, Text.withoutReturn,
      if_pos List.getLast?_concat, List.dropLast_concat]
  · have hlast : (Utf8.decode l).getLast? ≠ some '\r' := by
      intro hlast
      obtain ⟨l', rfl⟩ := (Utf8.decodes_iff.2 rfl).suffix_of_getLast? hlast (by decide)
      exact h List.getLast?_concat
    rw [withoutReturn, if_neg h, Text.withoutReturn, if_neg hlast]

/-- Decoding the lines and cutting the decoded text are the same. -/
theorem lines_eq (b : Bytes) (fault : Option Cause) :
    lines b fault = Text.lines (Utf8.decode b) fault := by
  have hterminated : terminated b = Text.terminated (Utf8.decode b) := by
    rw [terminated, Text.terminated, splitOn_decode, ← List.map_dropLast, List.map_map]
    simp only [Function.comp_def, decode_withoutReturn]
  have hunterminated : unterminated b = Text.unterminated (Utf8.decode b) := by
    have hlast : ((b.splitOn newline).map Utf8.decode).getLastD [] =
        Utf8.decode ((b.splitOn newline).getLastD []) := by
      rw [List.getLastD_eq_getLast?, List.getLast?_map, List.getLastD_eq_getLast?]
      cases (b.splitOn newline).getLast? <;> rfl
    rw [unterminated, Text.unterminated, splitOn_decode, hlast]
    simp only [Utf8.decode_eq_nil_iff]
  cases fault with
  | none => rw [lines, Text.lines, hterminated, hunterminated]
  | some c => rw [lines, Text.lines, hterminated]

/-! ## One line among others -/

theorem length_splitOn (b : Bytes) : (b.splitOn newline).length = b.count newline + 1 := by
  obtain ⟨ls, rest, hls, hrest, rfl⟩ := exists_lines b
  have hcount : (ls.flatMap (· ++ [newline])).count newline = ls.length := by
    clear hrest
    induction ls with
    | nil => rfl
    | cons l ls ih =>
        have hl := List.count_eq_zero.2 (hls l List.mem_cons_self)
        have hls := ih fun l hl => hls l (List.mem_cons_of_mem _ hl)
        simp [hl, hls]
  rw [splitOn_terminated hls hrest, List.count_append, hcount, List.count_eq_zero.2 hrest]
  simp

theorem length_terminated (b : Bytes) : (terminated b).length = b.count newline := by
  simp [terminated, length_splitOn]

/-- Lines that end in a newline come before the lines of what follows. -/
theorem lines_append_cons (l rest : Bytes) (fault : Option Cause) :
    lines (l ++ newline :: rest) fault = terminated (l ++ [newline]) ++ lines rest fault := by
  have hsplit (rest : Bytes) :
      (l ++ newline :: rest).splitOn newline = l.splitOn newline ++ rest.splitOn newline :=
    List.splitOn_append_cons_self l rest
  have hne := List.splitOn_ne_nil newline rest
  have hterminated : terminated (l ++ newline :: rest) =
      terminated (l ++ [newline]) ++ terminated rest := by
    rw [terminated, terminated, hsplit, hsplit, List.dropLast_append_of_ne_nil hne,
      List.splitOn_nil, List.dropLast_concat, List.map_append, terminated]
  have hunterminated : unterminated (l ++ newline :: rest) = unterminated rest := by
    rw [unterminated, unterminated, hsplit, List.getLastD_eq_getLast?, List.getLastD_eq_getLast?,
      List.getLast?_append_of_ne_nil _ hne]
  cases fault with
  | none => rw [lines, lines, hterminated, hunterminated, List.append_assoc]
  | some c => rw [lines, lines, hterminated]

theorem lines_whole {before : Bytes} (h : before = [] ∨ before.getLast? = some newline)
    (rest : Bytes) (fault : Option Cause) :
    lines (before ++ rest) fault = terminated before ++ lines rest fault := by
  rcases h with rfl | h
  · simp [terminated]
  · obtain ⟨l, rfl⟩ := List.getLast?_eq_some_iff.1 h
    rw [List.append_assoc, List.singleton_append, lines_append_cons]

/-- What is left of a line without a newline behind it. -/
theorem length_lines_rest (h : newline ∉ l) (fault : Option Cause) :
    (lines l fault).length = if fault = none ∧ l ≠ [] then 1 else 0 := by
  have hsplit : l.splitOn newline = [l] := splitOn_of_notMem h
  cases fault with
  | none => by_cases hl : l = [] <;> simp [lines, terminated, unterminated, hsplit, hl]
  | some c => simp [lines, terminated, hsplit]

end Content

/-- A piece of some bytes that stands on a line of its own. -/
structure OnLine (before line after : Bytes) : Prop where
  /-- The line begins there. -/
  before : before = [] ∨ before.getLast? = some newline
  /-- It goes on to the end of the piece. -/
  line : newline ∉ line
  /-- The line ends there. -/
  after : after = [] ∨ after.head? = some newline

namespace OnLine

variable {before line line' after : Bytes} {fault : Option Cause}

/-- The lines around one that is exchanged. -/
theorem lines_eq (h : OnLine before line after) (fault : Option Cause) :
    Content.lines (before ++ line ++ after) fault =
      Content.terminated before ++ Content.lines (line ++ after) fault := by
  rw [List.append_assoc, Content.lines_whole h.before]

/-- The lines from one that is exchanged on.  If something follows it, it ends in a newline. -/
theorem lines_after (h : OnLine before line after) (fault : Option Cause) :
    Content.lines (line ++ after) fault =
      match after with
      | [] => Content.lines line fault
      | _ :: rest => Utf8.decode (Content.withoutReturn line) :: Content.lines rest fault := by
  rcases h.after with rfl | hafter
  · rw [List.append_nil]
  · obtain ⟨rest, rfl⟩ := List.head?_eq_some_iff.1 hafter
    rw [Content.lines_append_cons, Content.terminated,
      List.splitOn_append_cons_self_of_not_mem h.line]
    simp

/-- The lines behind one that is exchanged stay as they are. -/
theorem tail_lines (h : OnLine before line after) (h' : OnLine before line' after)
    (fault : Option Cause) :
    (Content.lines (line ++ after) fault).tail = (Content.lines (line' ++ after) fault).tail := by
  rw [h.lines_after, h'.lines_after]
  cases after with
  | nil =>
      have hnil {l : Bytes} (hl : newline ∉ l) : (Content.lines l fault).tail = [] := by
        have hlength := Content.length_lines_rest hl fault
        rw [← List.length_eq_zero_iff, List.length_tail, hlength]
        split <;> rfl
      simp only [hnil h.line, hnil h'.line]
  | cons => rfl

theorem getElem?_lines (h : OnLine before line after) (h' : OnLine before line' after)
    (fault : Option Cause) {i : Nat} (hi : i ≠ before.count newline) :
    (Content.lines (before ++ line ++ after) fault)[i]? =
      (Content.lines (before ++ line' ++ after) fault)[i]? := by
  rw [h.lines_eq, h'.lines_eq]
  rw [← Content.length_terminated] at hi
  rcases Nat.lt_or_gt_of_ne hi with hlt | hgt
  · rw [List.getElem?_append_left hlt, List.getElem?_append_left hlt]
  · obtain ⟨k, rfl⟩ := Nat.exists_eq_add_of_lt hgt
    rw [List.getElem?_append_right (by omega), List.getElem?_append_right (by omega),
      Nat.add_assoc, Nat.add_sub_cancel_left, ← List.getElem?_tail, ← List.getElem?_tail,
      h.tail_lines h']

/-- The number of lines stays the same, unless the last line of a file comes or goes. -/
theorem length_lines (h : OnLine before line after) (h' : OnLine before line' after)
    (hlast : after = [] → fault = none → (line = [] ↔ line' = [])) :
    (Content.lines (before ++ line ++ after) fault).length =
      (Content.lines (before ++ line' ++ after) fault).length := by
  rw [h.lines_eq, h'.lines_eq, List.length_append, List.length_append, h.lines_after,
    h'.lines_after]
  cases after with
  | nil =>
      have hiff : fault = none ∧ line ≠ [] ↔ fault = none ∧ line' ≠ [] :=
        and_congr_right fun hfault => not_congr (hlast rfl hfault)
      simp only [Content.length_lines_rest h.line, Content.length_lines_rest h'.line, hiff]
  | cons => rfl

theorem getElem?_items (h : OnLine before line after) (h' : OnLine before line' after)
    (fault : Option Cause) {i : Nat} (hi : i ≠ before.count newline) :
    (Content.items (before ++ line ++ after) fault)[i]? =
      (Content.items (before ++ line' ++ after) fault)[i]? := by
  have hlines := h.getElem?_lines h' fault hi
  cases fault with
  | none => simp only [Content.items, Option.toList_none, List.map_nil, List.append_nil,
      List.getElem?_map, hlines]
  | some c =>
      -- What follows the last newline is lost, so the failure comes at the same place.
      have hlength : (Content.lines (before ++ line ++ after) (some c)).length =
          (Content.lines (before ++ line' ++ after) (some c)).length :=
        h.length_lines h' fun _ hfault => by cases hfault
      simp only [Content.items, List.getElem?_append, List.length_map, List.getElem?_map, hlines,
        hlength]

end OnLine

/-! ## Streams and scans -/

namespace Scan

/-- Deliveries that bring some bytes.  The lines of the stream are those of the text that the bytes
are decoded to as a whole, broken parts included.  If the bytes on one of the lines are exchanged
for others, all other items of the stream stay the same, and so do the directives on all other lines
and their numbers.  The number of lines stays the same too, unless the line is the one behind the
last newline, which is there only if it is not empty. -/
theorem lines_of_decoded {ds : List Delivery} {b : Bytes} {fault : Option Cause}
    (h : Brings ds b fault) :
    (∃ t, (∀ t', Utf8.Decodes b t' ↔ t' = t)
        ∧ Content.lines b fault = Text.lines t fault
        ∧ (LineStream.ofDeliveries ds).items =
          (Text.lines t fault).map .ok ++ fault.toList.map .error)
      ∧ ∀ before line line' after ds', b = before ++ line ++ after → OnLine before line after →
        OnLine before line' after → Brings ds' (before ++ line' ++ after) fault →
        (∀ i, i ≠ before.count newline →
          (LineStream.ofDeliveries ds).items[i]? = (LineStream.ofDeliveries ds').items[i]?)
        ∧ (∀ x, x.lineNo ≠ before.count newline + 1 →
          (x ∈ (ofDeliveries ds).directives ↔ x ∈ (ofDeliveries ds').directives))
        ∧ ((after = [] → (line = [] ↔ line' = [])) →
          (ofDeliveries ds).linesRead = (ofDeliveries ds').linesRead) := by
  refine ⟨⟨Utf8.decode b, fun t' => Utf8.decodes_iff, Content.lines_eq b fault, ?_⟩, ?_⟩
  · rw [LineStream.items_of_deliveries h, Content.items, Content.lines_eq]
  · rintro before line line' after ds' rfl hline hline' h'
    rw [LineStream.items_of_deliveries h, LineStream.items_of_deliveries h', ofDeliveries_eq h,
      ofDeliveries_eq h']
    refine ⟨fun i hi => hline.getElem?_items hline' fault hi, fun x hx => ?_, fun hlast => ?_⟩
    · rw [mem_locate, mem_locate]
      refine and_congr_right fun hpos => ?_
      rw [hline.getElem?_lines hline' fault (by omega)]
    · exact hline.length_lines hline' fun hafter _ => hlast hafter

/-- A line that ends in the middle of a character. -/
def truncatedLine : Bytes := Utf8.encode "// caf".toList ++ [0xE2, 0x82]

/-- What follows the line. -/
def afterTruncated : Bytes := newline :: Utf8.encode "#include \"b.h\"\r\n".toList

/-- The directive behind the line. -/
def directiveBehind : Located := ⟨2, "#include \"b.h\"".toList, "b.h".toList, .quoted⟩

theorem lines_of_decoded_truncated :
    Utf8.Decodes (truncatedLine ++ afterTruncated) "// caf\uFFFD\n#include \"b.h\"\r\n".toList
      ∧ (LineStream.ofDeliveries [.bytes truncatedLine, .bytes afterTruncated]).items =
        [.ok "// caf\uFFFD".toList, .ok "#include \"b.h\"".toList]
      ∧ (directiveBehind ∈ (ofDeliveries [.bytes truncatedLine, .bytes afterTruncated]).directives ↔
        directiveBehind ∈ (ofDeliveries [.bytes ([0xFF, 0xC0] ++ afterTruncated)]).directives) := by
  have hbrings : Brings [.bytes truncatedLine, .bytes afterTruncated]
      (truncatedLine ++ (afterTruncated ++ [])) none :=
    .bytes (by simp [truncatedLine]) (.bytes (List.cons_ne_nil _ _) .nil)
  have hbrings' : Brings [.bytes ([0xFF, 0xC0] ++ afterTruncated)]
      ([] ++ [0xFF, 0xC0] ++ afterTruncated) none := by
    rw [← List.append_nil (_ ++ afterTruncated)]
    exact .bytes (List.cons_ne_nil _ _) .nil
  rw [List.append_nil] at hbrings
  have hdecodes : Utf8.Decodes (truncatedLine ++ afterTruncated)
      "// caf\uFFFD\n#include \"b.h\"\r\n".toList := Utf8.decodes_iff.2 (by decide +kernel)
  obtain ⟨⟨t, ht, -, hitems⟩, hexchange⟩ := lines_of_decoded hbrings
  obtain rfl := (ht _).1 hdecodes
  have hline : OnLine [] truncatedLine afterTruncated := ⟨.inl rfl, by decide +kernel, .inr rfl⟩
  have hline' : OnLine [] [0xFF, 0xC0] afterTruncated := ⟨.inl rfl, by decide, .inr rfl⟩
  refine ⟨hdecodes, hitems.trans ?_, ?_⟩
  · decide +kernel
  · exact (hexchange [] _ _ _ _ rfl hline hline' hbrings').2.1 _ (by decide)

end Scan

end IncludeTrace
