import IncludeTrace.Proofs.CsvReader
import IncludeTrace.Proofs.ExitCode
import IncludeTrace.Proofs.JsonReader
import Mathlib.Data.List.Forall2
import Mathlib.Tactic.Choose

/-!
# One story in three formats

Runs that differ in their format only.  They trace the same files, so they end with
the same totals, and the messages on the second outlet are the same
(`Command.runIn_of_traceTo`).  What the first outlet holds is taken apart with the
readers for JSON and CSV, and then compared.  An object and a row are *about the same
event* if they say the same under every name they share, and if the message of a
failure in the row is made of what the object says about this failure
(`Json.Data.Matches`).

Plain lines leave failures out.  So they follow from the objects, but not conversely.
-/

namespace IncludeTrace

/-! ## Objects and rows -/

/-- What an object has under a name. -/
def Json.Data.member? (name : Text) : Json.Data → Option Json.Data
  | .object members => members.lookup name
  | _ => none

/-- What a row has under a name of the header. -/
def Csv.cell? (name : Text) (row : List Text) : Option Text := (Csv.header.zip row).lookup name

namespace Json

/-- How a member of an object is shown in a field of a row. -/
inductive ShownAs : Option Data → Text → Prop where
  /-- What is absent is shown as nothing. -/
  | absent : ShownAs none []
  /-- A text is shown as it is. -/
  | text (t : Text) : ShownAs (some (.text t)) t
  /-- A number is shown with its decimal digits. -/
  | number (n : Nat) : ShownAs (some (.number n)) (Nat.toDigits 10 n)

/-- The names that objects and rows share and use in the same way. -/
def sharedNames : List Text :=
  ["event", "path", "line_no", "line", "target", "quote"].map String.toList

theorem forall_sharedNames {P : Text → Prop} :
    (∀ name ∈ sharedNames, P name) ↔
      P "event".toList ∧ P "path".toList ∧ P "line_no".toList ∧ P "line".toList
        ∧ P "target".toList ∧ P "quote".toList := by
  simp [sharedNames]

/-- The beginning of the message about a failure of some kind. -/
def failurePhrase? (kind : Text) : Option Text :=
  if kind = "open".toList then some "Error opening file ".toList
  else if kind = "read".toList then some "Error reading file ".toList
  else none

namespace Data

/-- An object and a row are about the same event. -/
structure Matches (o : Data) (row : List Text) : Prop where
  /-- They say the same under the names they share. -/
  shared : ∀ name ∈ sharedNames, ∃ t, Csv.cell? name row = some t ∧ ShownAs (o.member? name) t
  /-- The message in the row tells the kind of failure, the path and the message in the object. -/
  message : o.member? "event".toList = some (.text "error".toList) →
    ∃ kind phrase path cause, o.member? "error_kind".toList = some (.text kind)
      ∧ failurePhrase? kind = some phrase
      ∧ o.member? "path".toList = some (.text path)
      ∧ o.member? "message".toList = some (.text cause)
      ∧ Csv.cell? "message".toList row = some (phrase ++ path ++ ": ".toList ++ cause)

/-- The plain line for an object. -/
def plainLine (o : Data) : Text :=
  match o.member? "event".toList, o.member? "path".toList, o.member? "line".toList with
  | some (.text event), some (.text path), line =>
      if event = "enter".toList then "Processing ".toList ++ path ++ ['\n']
      else if event = "close".toList then "Closing ".toList ++ path ++ ['\n']
      else
        match line with
        | some (.text line) =>
            if event = "found".toList then
              "Found include: ".toList ++ line ++ " in ".toList ++ path ++ ['\n']
            else []
        | _ => []
  | _, _, _ => []

end Data
end Json

/-- The message in a row about a failure, on a line of its own. -/
def Csv.messageLine (row : List Text) : Text :=
  if Csv.cell? "event".toList row = some "error".toList then
    (Csv.cell? "message".toList row).getD [] ++ ['\n']
  else []

namespace Event

/-- The object and the row for an event are about this event. -/
theorem matches_record (e : Event) : Json.Data.Matches (.object e.members) e.record := by
  rcases e with p | ⟨p, lineNo, line, target, _ | _⟩ | ⟨p, _ | _, cause⟩ | p
  case found.quoted | found.angle =>
    refine ⟨Json.forall_sharedNames.2 ⟨⟨_, rfl, .text _⟩, ⟨_, rfl, .text _⟩, ⟨_, rfl, .number _⟩,
      ⟨_, rfl, .text _⟩, ⟨_, rfl, .text _⟩, ⟨_, rfl, .text _⟩⟩, fun h => ?_⟩
    simp [Json.Data.member?, members] at h
  -- All other events have nothing but a label and a path under the shared names.
  all_goals
    refine ⟨Json.forall_sharedNames.2 ⟨⟨_, rfl, .text _⟩, ⟨_, rfl, .text _⟩, ⟨_, rfl, .absent⟩,
      ⟨_, rfl, .absent⟩, ⟨_, rfl, .absent⟩, ⟨_, rfl, .absent⟩⟩, fun h => ?_⟩
  case failed.opening | failed.reading => exact ⟨_, _, _, _, rfl, rfl, rfl, rfl, rfl⟩
  all_goals simp [Json.Data.member?, members] at h

theorem plainLine_members (e : Event) :
    Json.Data.plainLine (.object e.members) = e.plain?.getD [] := by
  cases e <;> rfl

theorem messageLine_record (e : Event) : Csv.messageLine e.record = e.complaint := by
  rcases e with p | ⟨p, d⟩ | ⟨p, _ | _, cause⟩ | p <;> rfl

end Event

namespace Format

theorem readLines?_rendering (es : List Event) :
    Json.readLines? (Format.json.rendering es) = some (es.map fun e => .object e.members) := by
  rw [rendering_json, Json.readLines?_lines]
  simp [Event.data_object]

theorem rendering_text (es : List Event) :
    Format.text.rendering es = Utf8.encode (es.flatMap fun e => e.plain?.getD []) := by
  rw [rendering_eq]
  simp only [header?, event?, Option.getD_none, List.nil_append, Utf8.encode, List.flatMap_assoc]
  refine List.flatMap_congr fun e _ => ?_
  cases e.plain? <;> rfl

end Format

/-! ## Runs in a format -/

namespace Command

variable {files : FileSystem} {fuel n : Nat} {s : Settings} {e : Ending} {l : List Signal}
  {b : Walk.Position}

/-- A run in a format, on outlets that never fail. -/
def runIn (files : FileSystem) (fuel : Nat) (s : Settings) (f : Format) : Option Ending :=
  run files fuel { s with format := f } (quietConsole { s with format := f } fun _ => .unlimited)

/-- A run that finishes, and whose output never fails, has traced the file to the end. -/
theorem exists_traceTo_of_unfailing {console : Console} (hc : console.Unfailing)
    (h : run files fuel s console = some e) :
    ∃ n l b, Walk.TraceTo files s.maxDepth s.file .empty n l b ∧ b.stack = [] ∧ n < fuel := by
  obtain ⟨hc', hnone⟩ := hc.emit console.format.header?
  have hheader : console.writeHeader = (console.writeHeader.1, none) := Prod.ext rfl hnone
  rw [run, hheader] at h
  cases htrace : Walk.trace (context files s) fuel s.file .empty console.writeHeader.1 with
  | none => simp [htrace] at h
  | some r =>
      obtain ⟨n, l, b, hto, ⟨hend, hn⟩ | ⟨hrefused, -⟩⟩ := Walk.exists_traceTo htrace
      · exact ⟨n, l, b, hto, hend, hn⟩
      · exact absurd (hc'.feed l).2 hrefused

theorem runIn_of_traceTo (ht : Walk.TraceTo files s.maxDepth s.file .empty n l b)
    (hend : b.stack = []) (hn : n < fuel) (f : Format) :
    ∃ e, runIn files fuel s f = some e ∧ e.result = .ok b.tally
      ∧ e.console.out.written = f.rendering (Signal.events l)
      ∧ e.console.err.written = Utf8.encode ((Signal.events l).flatMap Event.complaint
          ++ if s.summary then b.tally.report else []) := by
  obtain ⟨e, hrun, ⟨hresult, hwritten, -⟩ | ⟨-, hcut⟩⟩ :=
    run_cases (s := { s with format := f }) ht hend hn (fun _ => none) fun _ => Outlet.diskFull
  · refine ⟨e, hrun, hresult, ?_, ?_⟩
    · exact (hwritten .out).trans (sent_out_writes _ _ _)
    · exact (hwritten .err).trans (sent_err_writes _ _ _)
  · obtain ⟨_, _, _, _, -, -, hm, -⟩ := hcut
    cases hm

/-- If a run finishes in one format it finishes in all of them, with the same totals, the same exit
code and the same messages.  The objects of the run in JSON and the rows of the run in CSV are about
the same events, one by one.  The plain lines are those for the objects that are not failures.  If
no totals are asked for, the second outlet holds the messages of the rows about failures. -/
theorem runs_agree_across_formats {f₀ : Format} {e₀ : Ending}
    (h : runIn files fuel s f₀ = some e₀) :
    ∃ e : Format → Ending, (∀ f, runIn files fuel s f = some (e f))
      ∧ (∃ t, ∀ f, (e f).result = .ok t)
      ∧ (∀ f g, (e f).exit.code = (e g).exit.code)
      ∧ (∀ f g, (e f).console.err.written = (e g).console.err.written)
      ∧ ∃ objects rows,
        Json.readLines? (e .json).console.out.written = some objects
        ∧ Csv.readTexts? (e .csv).console.out.written = some (Csv.header :: rows)
        ∧ objects.length = rows.length
        ∧ List.Forall₂ Json.Data.Matches objects rows
        ∧ (e .text).console.out.written = Utf8.encode (objects.flatMap Json.Data.plainLine)
        ∧ (s.summary = false →
          ∀ f, (e f).console.err.written = Utf8.encode (rows.flatMap Csv.messageLine)) := by
  have hquiet : (quietConsole { s with format := f₀ } fun _ => .unlimited).Unfailing :=
    ⟨⟨rfl, rfl⟩, ⟨rfl, rfl⟩⟩
  obtain ⟨n, l, b, ht, hend, hn⟩ := exists_traceTo_of_unfailing hquiet h
  choose e hrun hresult hout herr using fun f => runIn_of_traceTo (s := s) ht hend hn f
  refine ⟨e, hrun, ⟨b.tally, hresult⟩, fun f g => ?_, fun f g => ?_,
    (Signal.events l).map fun e => .object e.members, (Signal.events l).map Event.record,
    ?_, ?_, ?_, ?_, ?_, ?_⟩
  · rw [Ending.exit, Ending.exit, hresult, hresult]
  · rw [herr, herr]
  · rw [hout, Format.readLines?_rendering]
  · rw [hout, Format.readTexts?_rendering]
  · simp
  · rw [List.forall₂_map_left_iff, List.forall₂_map_right_iff]
    exact List.forall₂_same.2 fun e _ => e.matches_record
  · rw [hout, Format.rendering_text]
    simp [List.flatMap_map, Event.plainLine_members]
  · intro hsummary f
    rw [herr, hsummary]
    simp [List.flatMap_map, Event.messageLine_record]

/-- A run on the mutual files that does not report its totals. -/
def silentSettings : Settings := { mutualSettings with summary := false }

/-- In all formats the run ends with one, because a file is missing and another cannot be read to
its end. -/
theorem runs_agree_across_formats_mutual :
    ∃ e : Format → Ending, (∀ f, runIn Walk.mutualFiles 20 silentSettings f = some (e f))
      ∧ (∀ f, (e f).exit.code = 1)
      ∧ ∃ objects rows,
        Json.readLines? (e .json).console.out.written = some objects
        ∧ Csv.readTexts? (e .csv).console.out.written = some (Csv.header :: rows)
        ∧ List.Forall₂ Json.Data.Matches objects rows
        ∧ (e .text).console.err.written = Utf8.encode (rows.flatMap Csv.messageLine) := by
  have hmap : (runIn Walk.mutualFiles 20 silentSettings .text).map (·.exit.code) = some 1 := by
    decide +kernel
  obtain ⟨e₀, he₀, hcode₀⟩ := Option.map_eq_some_iff.1 hmap
  obtain ⟨e, hrun, -, hcode, -, objects, rows, hobjects, hrows, -, hmatch, -, herr⟩ :=
    runs_agree_across_formats he₀
  obtain rfl : e .text = e₀ := Option.some.inj ((hrun .text).symm.trans he₀)
  exact ⟨e, hrun, fun f => (hcode f .text).trans hcode₀, objects, rows, hobjects, hrows, hmatch,
    herr rfl .text⟩

end Command

end IncludeTrace
