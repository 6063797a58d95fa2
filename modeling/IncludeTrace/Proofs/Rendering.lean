import IncludeTrace.Proofs.Cutoff

/-!
# What a format writes

The renderings of a trace in the three formats, as bytes on an outlet that takes
everything.  A rendering is the header of the format and then what the format
writes for each event, one after the other (`Format.rendering_eq`).  What goes to
the other outlet does not depend on the format: the messages about failures, each
on a line of its own, and the totals if they are asked for
(`Command.sent_err_writes`).
-/

namespace IncludeTrace

/-! ## Events on an outlet -/

namespace Console

variable {c : Console} {bs : Bytes}

theorem format_emit (c : Console) (b : Option Bytes) : (c.emit b).1.format = c.format := by
  cases b <;> rfl

theorem took_emit (h : Outlet.Took none bs c.out) (b : Option Bytes) :
    Outlet.Took none (bs ++ b.getD []) (c.emit b).1.out := by
  cases b with
  | none => simpa [emit] using h
  | some b =>
      obtain ⟨o, hput, ho⟩ := h.put (b := b) (by simp)
      simpa [emit, hput] using ho

theorem took_writeEvents (h : Outlet.Took none bs c.out) (es : List Event) :
    Outlet.Took none (bs ++ es.flatMap fun e => (c.format.event? e).getD [])
      (es.foldl (fun c e => (c.writeEvent e).1) c).out := by
  induction es generalizing c bs with
  | nil => simpa using h
  | cons e es ih =>
      have hnext := ih (took_emit h (c.format.event? e))
      rw [format_emit, List.append_assoc] at hnext
      exact hnext

end Console

namespace Format

/-- All that is written in a format for some events: the header, and then one event after the
other, to an outlet that takes everything. -/
def rendering (f : Format) (es : List Event) : Bytes :=
  let console := (Console.fresh f .unlimited .unlimited .off).writeHeader.1
  (es.foldl (fun c e => (c.writeEvent e).1) console).out.written

theorem rendering_eq (f : Format) (es : List Event) :
    f.rendering es = f.header?.getD [] ++ es.flatMap fun e => (f.event? e).getD [] := by
  have hempty : Outlet.Took none [] (Console.fresh f .unlimited .unlimited .off).out :=
    Outlet.took_taking none Outlet.diskFull
  have hall := Console.took_writeEvents (Console.took_emit hempty f.header?) es
  rw [Console.format_emit] at hall
  simpa [rendering, Console.writeHeader, Console.fresh] using hall.written

end Format

/-! ## The two outlets of a run -/

/-- The message about a failure, on a line of its own. -/
def Event.complaint : Event → Text
  | .failed p stage cause => failureMessage p stage cause ++ ['\n']
  | .enter _ | .found _ _ | .close _ => []

theorem sent_flatMap (x : Channel) (es : List Event) (g : Event → List Write) :
    sent x (es.flatMap g) = es.flatMap fun e => sent x (g e) := by
  induction es with
  | nil => rfl
  | cons e es ih => simp [ih]

theorem sent_out_toList (b : Option Bytes) : sent .out (b.toList.map (.mk .out)) = b.getD [] := by
  cases b <;> simp [sent]

theorem sent_err_toList (b : Option Bytes) : sent .err (b.toList.map (.mk .out)) = [] := by
  cases b <;> simp [sent]

theorem sent_out_event (f : Format) (e : Event) :
    sent .out (e.writes f) = (f.event? e).getD [] := by
  unfold Event.writes
  rw [sent_append, sent_out_toList]
  cases e <;> simp [sent]

theorem sent_err_event (f : Format) (e : Event) :
    sent .err (e.writes f) = Utf8.encode e.complaint := by
  unfold Event.writes
  rw [sent_append, sent_err_toList]
  cases e <;> simp [sent, Event.complaint]

namespace Command

theorem sent_out_writes (s : Settings) (es : List Event) (t : Tally) :
    sent .out (writes s es t) = s.format.rendering es := by
  rw [writes, Format.rendering_eq, sent_append, sent_append, sent_flatMap, sent_out_toList]
  simp only [sent_out_event]
  cases s.summary <;> simp [sent]

theorem sent_err_writes (s : Settings) (es : List Event) (t : Tally) :
    sent .err (writes s es t) =
      Utf8.encode (es.flatMap Event.complaint ++ if s.summary then t.report else []) := by
  rw [writes, sent_append, sent_append, sent_flatMap, sent_err_toList]
  simp only [sent_err_event]
  cases s.summary <;> simp [sent, Utf8.encode, List.flatMap_assoc]

end Command

end IncludeTrace
