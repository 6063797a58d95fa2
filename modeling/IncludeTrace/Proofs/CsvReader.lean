import IncludeTrace.Proofs.Encoding
import IncludeTrace.Proofs.Rendering

/-!
# CSV rows read back

A reader for tables in CSV, and what it makes of the rows for a trace.

Commas divide fields and a newline ends a row, unless they stand in quotes.  A quote
opens a field only if nothing of the field was read before it.  Inside quotes, a
quote is either the first of two, which stand for one, or it closes the field, and
only the next byte tells which.  Readers differ in what they do with a quote in the
middle of a field, with a field that goes on behind its quotes, and with a carriage
return outside quotes.  The reader here refuses all of these.

What a field is written as brings the reader to a place where a comma or a newline
completes this field (`run?_field`), whether quotes were needed or not.  So the
reader is back at the beginning of a field after each comma and at the beginning of
a row after each newline (`run?_row`), and all rows are read back (`readTexts?_rows`).
-/

namespace IncludeTrace

namespace Csv

/-- Where the reader stands in a field. -/
inductive Place where
  /-- Outside quotes. -/
  | bare
  /-- Inside quotes. -/
  | quoted
  /-- Behind a quote that was read inside quotes. -/
  | closing
deriving DecidableEq

/-- Where the reader stands in a table.  What was read is kept newest first. -/
structure Reader where
  /-- The place in the field that is read. -/
  place : Place
  /-- The bytes of the field so far. -/
  field : Bytes
  /-- The fields of the row before this one. -/
  fields : List Bytes
  /-- The rows before this one. -/
  rows : List (List Bytes)

namespace Reader

/-- The beginning of a table. -/
def fresh : Reader := ⟨.bare, [], [], []⟩

/-- The field is complete. -/
def endField (r : Reader) : Reader := ⟨.bare, [], r.field.reverse :: r.fields, r.rows⟩

/-- The row is complete. -/
def endRow (r : Reader) : Reader := ⟨.bare, [], [], r.endField.fields.reverse :: r.rows⟩

/-- One byte. -/
def next? (r : Reader) (b : UInt8) : Option Reader :=
  match r.place with
  | .quoted =>
      if b = quote then some { r with place := .closing }
      else some { r with field := b :: r.field }
  | .closing =>
      if b = comma then some r.endField
      else if b = newline then some r.endRow
      else if b = quote then some { r with place := .quoted, field := b :: r.field }
      else none
  | .bare =>
      if b = comma then some r.endField
      else if b = newline then some r.endRow
      else if b = quote then if r.field = [] then some { r with place := .quoted } else none
      else if b = 0x0D then none
      else some { r with field := b :: r.field }

/-- The rows at the end.  The last one need not end in a newline. -/
def finish? (r : Reader) : Option (List (List Bytes)) :=
  if r.place = .quoted then none
  else if r.place = .bare ∧ r.field = [] ∧ r.fields = [] then some r.rows.reverse
  else some r.endRow.rows.reverse

/-- The rows of a table, from a place on. -/
def run? : Reader → Bytes → Option (List (List Bytes))
  | r, [] => r.finish?
  | r, b :: bs =>
      match r.next? b with
      | none => none
      | some r' => run? r' bs

end Reader

/-- The rows that some bytes stand for. -/
def read? (b : Bytes) : Option (List (List Bytes)) := Reader.fresh.run? b

/-- The rows that some bytes stand for, as texts. -/
def readTexts? (b : Bytes) : Option (List (List Text)) :=
  (read? b).bind fun rows => rows.mapM fun fields => fields.mapM Utf8.decode?

/-! ## Fields -/

namespace Reader

variable {r r' : Reader} {fields : List Bytes} {rows : List (List Bytes)}

theorem run?_of_next? {b : UInt8} (h : r.next? b = some r') (bs : Bytes) :
    r.run? (b :: bs) = r'.run? bs := by
  simp [run?, h]

/-- Bytes without a meaning of their own, outside quotes. -/
theorem run?_bare {bs : Bytes} (hbs : ∀ b ∈ bs, isSpecial b = false) (read rest : Bytes) :
    run? ⟨.bare, read, fields, rows⟩ (bs ++ rest) =
      run? ⟨.bare, bs.reverse ++ read, fields, rows⟩ rest := by
  induction bs generalizing read with
  | nil => rfl
  | cons b bs ih =>
      have hb := hbs b (.head _)
      simp only [isSpecial, Bool.or_eq_false_iff, beq_eq_false_iff_ne] at hb
      obtain ⟨⟨⟨hcomma, hquote⟩, hreturn⟩, hnewline⟩ := hb
      have hnext : next? ⟨.bare, read, fields, rows⟩ b =
          some ⟨.bare, b :: read, fields, rows⟩ := by
        simp [next?, hcomma, hquote, hreturn, hnewline]
      rw [List.cons_append, run?_of_next? hnext, ih fun c hc => hbs c (.tail _ hc)]
      simp

/-- Any bytes, inside quotes. -/
theorem run?_quoted (bs read rest : Bytes) :
    run? ⟨.quoted, read, fields, rows⟩ (bs.flatMap double ++ rest) =
      run? ⟨.quoted, bs.reverse ++ read, fields, rows⟩ rest := by
  induction bs generalizing read with
  | nil => rfl
  | cons b bs ih =>
      have hbyte (rest : Bytes) : run? ⟨.quoted, read, fields, rows⟩ (double b ++ rest) =
          run? ⟨.quoted, b :: read, fields, rows⟩ rest := by
        unfold double
        split
        · subst b
          exact (run?_of_next? rfl _).trans (run?_of_next? rfl _)
        · exact run?_of_next? (by simp [next?, *]) rest
      rw [List.flatMap_cons, List.append_assoc, hbyte, ih]
      simp

/-- A field, up to the comma or the newline behind it. -/
theorem run?_field (t : Text) {b : UInt8} (hb : b = comma ∨ b = newline) (rest : Bytes) :
    run? ⟨.bare, [], fields, rows⟩ (Csv.field t ++ b :: rest) =
      run? ⟨.bare, (Utf8.encode t).reverse, fields, rows⟩ (b :: rest) := by
  simp only [Csv.field]
  split
  · rw [List.cons_append, List.cons_append, List.append_assoc, run?_of_next? rfl, run?_quoted,
      List.append_nil, List.singleton_append, run?_of_next? rfl]
    -- Behind the closing quote the byte has the meaning it has outside quotes.
    rcases hb with rfl | rfl <;> rfl
  · next hspecial =>
      have hplain : ∀ b ∈ Utf8.encode t, isSpecial b = false := by
        simpa using hspecial
      rw [run?_bare hplain, List.append_nil]

/-! ## Rows -/

theorem run?_row (t : Text) (ts : List Text) (rest : Bytes) :
    run? ⟨.bare, [], fields, rows⟩ (row (t :: ts) ++ rest) =
      run? ⟨.bare, [], [], (fields.reverse ++ (t :: ts).map Utf8.encode) :: rows⟩ rest := by
  rw [row, List.append_assoc, List.singleton_append]
  induction ts generalizing t fields with
  | nil =>
      rw [List.map_singleton, List.intercalate_singleton, run?_field t (.inr rfl),
        run?_of_next? rfl]
      simp [endRow, endField]
  | cons t' ts ih =>
      rw [List.map_cons, List.map_cons, List.intercalate_cons_cons, List.append_assoc,
        List.append_assoc, List.singleton_append, run?_field t (.inl rfl), run?_of_next? rfl,
        ← List.map_cons, endField, ih]
      simp

theorem run?_rows {rs : List (List Text)} (hrs : ∀ r ∈ rs, r ≠ []) :
    run? ⟨.bare, [], [], rows⟩ (rs.flatMap row) =
      some (rows.reverse ++ rs.map (·.map Utf8.encode)) := by
  induction rs generalizing rows with
  | nil => simp [run?, finish?]
  | cons r rs ih =>
      obtain ⟨t, ts, rfl⟩ := List.exists_cons_of_ne_nil (hrs r (.head _))
      rw [List.flatMap_cons, run?_row, ih fun r hr => hrs r (.tail _ hr)]
      simp

end Reader

/-- Rows that are written are read back. -/
theorem readTexts?_rows {rs : List (List Text)} (hrs : ∀ r ∈ rs, r ≠ []) :
    readTexts? (rs.flatMap row) = some rs := by
  have hread : read? (rs.flatMap row) = some (rs.map (·.map Utf8.encode)) :=
    Reader.run?_rows hrs
  have hdecode (ts : List Text) : (ts.map Utf8.encode).mapM Utf8.decode? = some ts := by
    simpa [Function.comp_def] using List.mapM_pure (m := Option) (f := id) (l := ts)
  simpa [readTexts?, hread, Function.comp_def, hdecode] using
    List.mapM_pure (m := Option) (f := id) (l := rs)

/-- The reader is not only for what is written here. -/
example : read? (Utf8.encode "a,\"b\"\n,\"\"".toList) =
    some [[Utf8.encode ['a'], Utf8.encode ['b']], [[], []]] := by
  decide

end Csv

/-! ## The rows for a trace -/

namespace Event

/-- The fields of the row for an event.  A path is shown as a text, with the replacement
character for what is not UTF-8. -/
def record : Event → List Text
  | .enter p => ["enter".toList, Utf8.decode p.bytes, [], [], [], [], []]
  | .found p ⟨lineNo, line, target, quote⟩ =>
      ["found".toList, Utf8.decode p.bytes, Nat.toDigits 10 lineNo, line, target,
        match quote with
          | .quoted => "quoted".toList
          | .angle => "angle_bracket".toList,
        []]
  | .failed p stage cause =>
      ["error".toList, Utf8.decode p.bytes, [], [], [], [],
        (match stage with
          | .opening => "Error opening file ".toList
          | .reading => "Error reading file ".toList)
          ++ Utf8.decode p.bytes ++ ": ".toList ++ cause.text]
  | .close p => ["close".toList, Utf8.decode p.bytes, [], [], [], [], []]

theorem fields_eq_record (e : Event) : e.fields = e.record := by
  rcases e with p | ⟨p, lineNo, line, target, _ | _⟩ | ⟨p, _ | _, cause⟩ | p <;> rfl

theorem length_record (e : Event) : e.record.length = 7 := by
  cases e <;> rfl

end Event

namespace Format

theorem rendering_csv (es : List Event) :
    Format.csv.rendering es = (Csv.header :: es.map Event.record).flatMap Csv.row := by
  rw [rendering_eq]
  simp [header?, event?, List.flatMap_map, Event.fields_eq_record]

theorem readTexts?_rendering (es : List Event) :
    Csv.readTexts? (Format.csv.rendering es) = some (Csv.header :: es.map Event.record) := by
  rw [rendering_csv]
  refine Csv.readTexts?_rows fun r hr => ?_
  rcases List.mem_cons.1 hr with rfl | hr
  · decide
  · obtain ⟨e, -, rfl⟩ := List.mem_map.1 hr
    exact List.ne_nil_of_length_pos (by rw [Event.length_record]; decide)

/-- The rows for some events are read as the names of the fields and one record of seven fields
for each event. -/
theorem csv_rows_read_back (es : List Event) :
    Csv.readTexts? (Format.csv.rendering es) =
        some (["event", "path", "line_no", "line", "target", "quote", "message"].map String.toList
          :: es.map Event.record) ∧
      ∀ e ∈ es, e.record.length = 7 :=
  ⟨readTexts?_rendering es, fun e _ => e.length_record⟩

end Format

end IncludeTrace
