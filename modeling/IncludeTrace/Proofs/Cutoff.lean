import IncludeTrace.Command.Run
import IncludeTrace.Proofs.Outcome
import Mathlib.Logic.Function.Basic

/-!
# Output that is cut off

A run writes to two outlets in turn: the header and the events to one, the messages
about failures and the totals to the other.  Which of them a write goes to, and in
which order the writes come, is settled by the events and the totals alone
(`Command.writes`).  A run hands these writes to its outlets, one after the other,
until one of them fails (`Command.run_delivers`).

A write need not be made at once.  Its bytes can be written piece by piece, and the
outlets hold the same and answer the same (`deliverEach_alike`).

If outlets have room for so many bytes only, either all writes fit, or there is a
first one that does not.  Its outlet is then filled to the last byte, the other one
holds what came before, and nothing follows (`deliver_cases`).

All this is about runs that show no notes.  A note that does not fit is cut off too,
and the run goes on.
-/

namespace IncludeTrace

/-! ## Outlets with little room -/

namespace Outlet

/-- An empty outlet with room for so many bytes, if there is a limit.  Its flushes succeed. -/
def taking (limit : Option Nat) (full : Cause) : Outlet := ⟨[], limit, full, none⟩

/-- The outlet took some bytes, of as many as it takes. -/
structure Took (limit : Option Nat) (bs : Bytes) (o : Outlet) : Prop where
  written : o.written = bs
  room : o.room = limit.map (· - bs.length)
  flushes : o.flushes = none
  fits : ∀ m, limit = some m → bs.length ≤ m

variable {limit : Option Nat} {bs : Bytes} {o : Outlet}

theorem took_taking (limit : Option Nat) (full : Cause) : Took limit [] (taking limit full) where
  written := rfl
  room := by cases limit <;> rfl
  flushes := rfl
  fits := fun _ _ => Nat.zero_le _

theorem written_push (o : Outlet) (b : Bytes) (room : Option Nat) :
    written { o with pieces := b :: o.pieces, room := room } = o.written ++ b := by
  simp [written]

/-- Bytes that fit are taken. -/
theorem Took.put (h : Took limit bs o) {b : Bytes}
    (hfits : ∀ m, limit = some m → (bs ++ b).length ≤ m) :
    ∃ o', o.put b = (o', none) ∧ Took limit (bs ++ b) o' := by
  obtain ⟨rfl, hroom, hflushes, -⟩ := h
  cases limit with
  | none =>
      have hroom : o.room = none := hroom
      refine ⟨{ o with pieces := b :: o.pieces, room := none }, ?_, written_push o b none, rfl,
        hflushes, hfits⟩
      simp [Outlet.put, write, flush, hroom, hflushes]
  | some m =>
      have hroom : o.room = some (m - o.written.length) := hroom
      have hle := hfits m rfl
      rw [List.length_append] at hle
      have hb : b.length ≤ m - o.written.length := by omega
      refine ⟨{ o with pieces := b :: o.pieces, room := some (m - o.written.length - b.length) },
        ?_, written_push o b _, ?_, hflushes, hfits⟩
      · simp [Outlet.put, write, flush, hroom, hflushes, hb]
      · simp [Nat.sub_sub]

/-- Bytes that do not fit are taken up to the limit, and the write fails. -/
theorem Took.put_cut {m : Nat} (h : Took (some m) bs o) {b : Bytes} (hcut : m < (bs ++ b).length) :
    ∃ o' cause, o.put b = (o', some cause) ∧ o'.written = (bs ++ b).take m := by
  obtain ⟨rfl, hroom, -, hfits⟩ := h
  have hroom : o.room = some (m - o.written.length) := hroom
  have hle := hfits m rfl
  have hb : ¬ b.length ≤ m - o.written.length := by
    rw [List.length_append] at hcut
    omega
  refine ⟨{ o with pieces := b.take (m - o.written.length) :: o.pieces, room := some 0 }, o.full,
    ?_, ?_⟩
  · simp [Outlet.put, write, hroom, hb]
  · rw [written_push, List.take_append, List.take_of_length_le hle]

/-! ## Writes in pieces -/

/-- The outlets hold the same bytes and go on in the same way.  They may have got the bytes in
different pieces. -/
structure Alike (o o' : Outlet) : Prop where
  written : o.written = o'.written
  room : o.room = o'.room
  full : o.full = o'.full
  flushes : o.flushes = o'.flushes

/-- Writes some pieces one after the other, until one does not fit. -/
def writeEach (o : Outlet) : List Bytes → Outlet × Option Cause
  | [] => (o, none)
  | b :: bs =>
      match o.write b with
      | (o, none) => o.writeEach bs
      | (o, some cause) => (o, some cause)

/-- Writes some pieces and flushes them. -/
def putEach (o : Outlet) (bs : List Bytes) : Outlet × Option Cause :=
  match o.writeEach bs with
  | (o, none) => o.flush
  | (o, some cause) => (o, some cause)

section Pieces

variable {o o' : Outlet} {a b : Bytes} {r : Nat} {cause : Cause}

theorem Alike.refl (o : Outlet) : Alike o o := ⟨rfl, rfl, rfl, rfl⟩

theorem Alike.trans {o'' : Outlet} (h : Alike o o') (h' : Alike o' o'') : Alike o o'' :=
  ⟨h.written.trans h'.written, h.room.trans h'.room, h.full.trans h'.full,
    h.flushes.trans h'.flushes⟩

/-- What a write takes and leaves, whether it fits or not. -/
theorem write_eq (o : Outlet) (b : Bytes) :
    o.write b = ({ o with
      pieces := b.take (o.room.getD b.length) :: o.pieces
      room := o.room.map (· - b.length) },
      if o.room.all (b.length ≤ ·) then none else some o.full) := by
  obtain ⟨pieces, room, full, flushes⟩ := o
  cases room with
  | none => simp [write]
  | some r =>
      by_cases h : b.length ≤ r
      · simp [write, h, List.take_of_length_le h]
      · have hrest : r - b.length = 0 := by omega
        simp [write, h, hrest]

theorem answer_write (o : Outlet) (b : Bytes) :
    (o.write b).2 = if o.room.all (b.length ≤ ·) then none else some o.full := by
  rw [write_eq]

theorem written_write (o : Outlet) (b : Bytes) :
    (o.write b).1.written = o.written ++ b.take (o.room.getD b.length) := by
  rw [write_eq]
  exact written_push ..

theorem room_write (o : Outlet) (b : Bytes) : (o.write b).1.room = o.room.map (· - b.length) := by
  rw [write_eq]

theorem full_write (o : Outlet) (b : Bytes) : (o.write b).1.full = o.full := by
  rw [write_eq]

theorem flushes_write (o : Outlet) (b : Bytes) : (o.write b).1.flushes = o.flushes := by
  rw [write_eq]

theorem Alike.write (h : Alike o o') (b : Bytes) :
    (o.write b).2 = (o'.write b).2 ∧ Alike (o.write b).1 (o'.write b).1 := by
  refine ⟨?_, ?_, ?_, ?_, ?_⟩
  · rw [answer_write, answer_write, h.room, h.full]
  · rw [written_write, written_write, h.room, h.written]
  · rw [room_write, room_write, h.room]
  · rw [full_write, full_write, h.full]
  · rw [flushes_write, flushes_write, h.flushes]

theorem Alike.flush (h : Alike o o') :
    o.flush.2 = o'.flush.2 ∧ Alike o.flush.1 o'.flush.1 := by
  rw [Outlet.flush, Outlet.flush, ← h.flushes]
  split
  · exact ⟨rfl, h⟩
  · exact ⟨rfl, h.written, h.room, h.full, rfl⟩
  · exact ⟨rfl, h.written, h.room, h.full, rfl⟩

/-- A piece that fits, and what comes behind it. -/
theorem write_append_of_fits (h : (o.write a).2 = none) (b : Bytes) :
    ((o.write a).1.write b).2 = (o.write (a ++ b)).2 ∧
      Alike ((o.write a).1.write b).1 (o.write (a ++ b)).1 := by
  refine ⟨?_, ?_, ?_, ?_, ?_⟩
  · rw [answer_write] at h
    rw [answer_write, answer_write, room_write, full_write]
    cases hroom : o.room with
    | none => rfl
    | some r =>
        have hfits : a.length ≤ r := by simpa [hroom] using h
        have hiff : b.length ≤ r - a.length ↔ (a ++ b).length ≤ r := by
          rw [List.length_append]
          omega
        simp only [Option.map_some, Option.all_some, hiff]
  · rw [written_write, written_write, written_write, room_write, List.append_assoc]
    cases o.room with
    | none => simp only [Option.map_none, Option.getD_none, List.take_length]
    | some r => exact congrArg _ List.take_append.symm
  · rw [room_write, room_write, room_write, List.length_append, Option.map_map]
    exact congrArg (Option.map · o.room) (funext fun r => Nat.sub_sub r a.length b.length)
  · rw [full_write, full_write, full_write]
  · rw [flushes_write, flushes_write, flushes_write]

/-- A piece that does not fit leaves no room. -/
theorem room_of_cut (h : (o.write a).2 = some cause) :
    cause = o.full ∧ ∃ r, o.room = some r ∧ r < a.length := by
  rw [answer_write] at h
  cases hroom : o.room with
  | none => simp [hroom] at h
  | some r =>
      rw [hroom] at h
      split at h
      · cases h
      · rename_i hfits
        exact ⟨(Option.some.inj h).symm, r, rfl, by simpa using hfits⟩

/-- What comes behind a piece that does not fit makes no difference. -/
theorem write_append_of_cut (h : (o.write a).2 = some cause) (b : Bytes) :
    (o.write (a ++ b)).2 = some cause ∧ Alike (o.write a).1 (o.write (a ++ b)).1 := by
  obtain ⟨rfl, r, hroom, hcut⟩ := room_of_cut h
  have hlong : r < (a ++ b).length := by
    rw [List.length_append]
    omega
  refine ⟨?_, ?_, ?_, ?_, ?_⟩
  · rw [answer_write, hroom, if_neg (by simpa using hlong)]
  · rw [written_write, written_write, hroom]
    exact congrArg _ (List.take_append_of_le_length (Nat.le_of_lt hcut)).symm
  · rw [room_write, room_write, hroom, Option.map_some, Option.map_some,
      Nat.sub_eq_zero_of_le (Nat.le_of_lt hcut), Nat.sub_eq_zero_of_le (Nat.le_of_lt hlong)]
  · rw [full_write, full_write]
  · rw [flushes_write, flushes_write]

/-- Once a write did not fit, no other one adds anything. -/
theorem write_alike_of_failed (h : (o.write a).2 = some cause) (b : Bytes) :
    Alike ((o.write a).1.write b).1 (o.write a).1 := by
  obtain ⟨-, r, hroom, hcut⟩ := room_of_cut h
  have hfull : (o.write a).1.room = some 0 := by
    rw [room_write, hroom, Option.map_some, Nat.sub_eq_zero_of_le (Nat.le_of_lt hcut)]
  refine ⟨?_, ?_, full_write .., flushes_write ..⟩
  · rw [written_write, hfull]
    exact List.append_nil _
  · rw [room_write, hfull]
    exact congrArg some (Nat.zero_sub _)

/-- Writing the pieces one by one is writing them at once. -/
theorem writeEach_alike (o : Outlet) (bs : List Bytes) :
    (o.writeEach bs).2 = (o.write bs.flatten).2 ∧
      Alike (o.writeEach bs).1 (o.write bs.flatten).1 := by
  induction bs generalizing o with
  | nil =>
      refine ⟨?_, ?_, ?_, (full_write ..).symm, (flushes_write ..).symm⟩
      · rw [answer_write]
        cases o.room <;> rfl
      · rw [written_write, List.flatten_nil, List.take_nil, List.append_nil]
        rfl
      · rw [writeEach, room_write]
        cases o.room <;> rfl
  | cons b bs ih =>
      rw [writeEach, List.flatten_cons]
      rcases hb : o.write b with ⟨o', _ | cause⟩
      · obtain ⟨hanswer, halike⟩ := write_append_of_fits (congrArg Prod.snd hb) bs.flatten
        rw [hb] at hanswer halike
        exact ⟨(ih o').1.trans hanswer, (ih o').2.trans halike⟩
      · obtain ⟨hanswer, halike⟩ := write_append_of_cut (congrArg Prod.snd hb) bs.flatten
        rw [hb] at halike
        exact ⟨hanswer.symm, halike⟩

/-- Pieces that are written one by one and flushed leave what one write of them leaves. -/
theorem putEach_alike (h : Alike o o') (bs : List Bytes) :
    (o.putEach bs).2 = (o'.put bs.flatten).2 ∧ Alike (o.putEach bs).1 (o'.put bs.flatten).1 := by
  obtain ⟨hanswer, halike⟩ := o.writeEach_alike bs
  obtain ⟨hanswer', halike'⟩ := h.write bs.flatten
  have hsame := hanswer.trans hanswer'
  have hboth := halike.trans halike'
  rw [putEach, put]
  generalize o.writeEach bs = x at hsame hboth ⊢
  generalize o'.write bs.flatten = x' at hsame hboth ⊢
  obtain ⟨p, answer⟩ := x
  obtain ⟨p', answer'⟩ := x'
  cases hsame
  cases answer with
  | none => exact hboth.flush
  | some cause => exact ⟨rfl, hboth⟩

end Pieces

end Outlet

/-! ## Writes to several outlets -/

/-- The two outlets of a console. -/
inductive Channel where
  /-- Where events go. -/
  | out
  /-- Where messages go. -/
  | err
deriving DecidableEq

/-- Bytes to be written to one of the outlets. -/
structure Write where
  channel : Channel
  bytes : Bytes

/-- All that is to be written to one outlet. -/
def sent (x : Channel) (ws : List Write) : Bytes :=
  (ws.filter fun w => w.channel = x).flatMap Write.bytes

/-- Hands writes to their outlets until one fails. -/
def deliver (o : Channel → Outlet) : List Write → (Channel → Outlet) × Option Cause
  | [] => (o, none)
  | w :: ws =>
      match (o w.channel).put w.bytes with
      | (p, none) => deliver (Function.update o w.channel p) ws
      | (p, some cause) => (Function.update o w.channel p, some cause)

/-- Bytes to be written to one of the outlets, piece by piece. -/
structure Portioned where
  channel : Channel
  pieces : List Bytes

/-- The same bytes as one write. -/
def Portioned.write (w : Portioned) : Write := ⟨w.channel, w.pieces.flatten⟩

/-- Hands writes to their outlets piece by piece, until one fails. -/
def deliverEach (o : Channel → Outlet) : List Portioned → (Channel → Outlet) × Option Cause
  | [] => (o, none)
  | w :: ws =>
      match (o w.channel).putEach w.pieces with
      | (p, none) => deliverEach (Function.update o w.channel p) ws
      | (p, some cause) => (Function.update o w.channel p, some cause)

/-- There is a first write that does not fit.  Its outlet is filled up, and the others hold what
was written to them before. -/
def CutOff (limit : Channel → Option Nat) (ws : List Write) (o : Channel → Outlet) : Prop :=
  ∃ before w after m, ws = before ++ w :: after
    ∧ (∀ x m, limit x = some m → (sent x before).length ≤ m)
    ∧ limit w.channel = some m ∧ m < (sent w.channel (before ++ [w])).length
    ∧ (o w.channel).written = (sent w.channel ws).take m
    ∧ ∀ x, x ≠ w.channel → (o x).written = sent x before

section Deliver

variable {limit : Channel → Option Nat} {o o' : Channel → Outlet} {ws ws' done : List Write}
  {w : Write} {x : Channel} {cause : Cause}

@[simp] theorem sent_append (x : Channel) (ws ws' : List Write) :
    sent x (ws ++ ws') = sent x ws ++ sent x ws' := by
  simp [sent]

theorem sent_self (w : Write) : sent w.channel [w] = w.bytes := by
  simp [sent]

theorem sent_of_ne (h : x ≠ w.channel) : sent x [w] = [] := by
  simp [sent, Ne.symm h]

theorem deliver_singleton (o : Channel → Outlet) (w : Write) :
    deliver o [w] =
      (Function.update o w.channel ((o w.channel).put w.bytes).1,
        ((o w.channel).put w.bytes).2) := by
  rcases hput : (o w.channel).put w.bytes with ⟨p, _ | cause⟩
  · rw [deliver, hput]
    rfl
  · rw [deliver, hput]

theorem deliver_append_ok (h : deliver o ws = (o', none)) (ws' : List Write) :
    deliver o (ws ++ ws') = deliver o' ws' := by
  fun_induction deliver o ws with
  | case1 o => cases h; rfl
  | case2 o w ws p hput ih =>
      rw [List.cons_append, deliver, hput]
      exact ih h
  | case3 o w ws p cause hput => cases h

theorem deliver_append_failed (h : deliver o ws = (o', some cause)) (ws' : List Write) :
    deliver o (ws ++ ws') = (o', some cause) := by
  fun_induction deliver o ws with
  | case1 o => cases h
  | case2 o w ws p hput ih =>
      rw [List.cons_append, deliver, hput]
      exact ih h
  | case3 o w ws p c hput =>
      rw [List.cons_append, deliver, hput]
      exact h

theorem alike_update {p p' : Outlet} (h : ∀ x, Outlet.Alike (o x) (o' x)) (hp : p.Alike p')
    (x y : Channel) : Outlet.Alike (Function.update o x p y) (Function.update o' x p' y) := by
  by_cases hy : y = x
  · subst hy
    rwa [Function.update_self, Function.update_self]
  · rw [Function.update_of_ne hy, Function.update_of_ne hy]
    exact h y

/-- Writes that are made piece by piece leave on the outlets what they leave when each is made at
once, and the same one fails. -/
theorem deliverEach_alike (ws : List Portioned) (h : ∀ x, Outlet.Alike (o x) (o' x)) :
    (deliverEach o ws).2 = (deliver o' (ws.map Portioned.write)).2 ∧
      ∀ x, Outlet.Alike ((deliverEach o ws).1 x) ((deliver o' (ws.map Portioned.write)).1 x) := by
  induction ws generalizing o o' with
  | nil => exact ⟨rfl, h⟩
  | cons w ws ih =>
      obtain ⟨hanswer, halike⟩ := Outlet.putEach_alike (h w.channel) w.pieces
      rw [List.map_cons, deliverEach, deliver, Portioned.write]
      generalize (o w.channel).putEach w.pieces = r at hanswer halike ⊢
      generalize (o' w.channel).put w.pieces.flatten = r' at hanswer halike ⊢
      obtain ⟨p, answer⟩ := r
      obtain ⟨p', answer'⟩ := r'
      cases hanswer
      cases answer with
      | none => exact ih (alike_update h halike w.channel)
      | some cause => exact ⟨rfl, alike_update h halike w.channel⟩

/-- What comes of writes that go on from others: they all fit, or one is cut off. -/
theorem deliver_cases (ws : List Write) (h : ∀ x, Outlet.Took (limit x) (sent x done) (o x)) :
    (∃ o', deliver o ws = (o', none) ∧ ∀ x, Outlet.Took (limit x) (sent x (done ++ ws)) (o' x))
      ∨ ∃ o' cause, deliver o ws = (o', some cause) ∧ CutOff limit (done ++ ws) o' := by
  -- The writes in `done` were made, and all of them fitted.
  induction ws generalizing done o with
  | nil =>
      left
      rw [List.append_nil]
      exact ⟨o, rfl, h⟩
  | cons w ws ih =>
      have hw := h w.channel
      by_cases hfits : ∀ m, limit w.channel = some m → (sent w.channel done ++ w.bytes).length ≤ m
      · obtain ⟨p, hput, hp⟩ := hw.put hfits
        have hnext : ∀ x, Outlet.Took (limit x) (sent x (done ++ [w]))
            (Function.update o w.channel p x) := by
          intro x
          by_cases hx : x = w.channel
          · subst hx
            rwa [Function.update_self, sent_append, sent_self]
          · rw [Function.update_of_ne hx, sent_append, sent_of_ne hx, List.append_nil]
            exact h x
        rw [deliver, hput, List.append_cons]
        exact ih hnext
      · simp only [not_forall, Nat.not_le] at hfits
        obtain ⟨m, hm, hcut⟩ := hfits
        rw [hm] at hw
        obtain ⟨p, cause, hput, hp⟩ := hw.put_cut hcut
        right
        rw [deliver, hput]
        refine ⟨_, cause, rfl, done, w, ws, m, rfl, fun x => (h x).fits, hm, ?_, ?_, ?_⟩
        · rwa [sent_append, sent_self]
        · rw [Function.update_self, hp, List.append_cons, sent_append, sent_append, sent_self,
            List.take_append_of_le_length (Nat.le_of_lt hcut)]
        · intro x hx
          rw [Function.update_of_ne hx]
          exact (h x).written

theorem CutOff.written_prefix (h : CutOff limit ws o) (x : Channel) :
    (o x).written <+: sent x ws := by
  obtain ⟨before, w, after, m, rfl, -, -, -, hfull, hothers⟩ := h
  by_cases hx : x = w.channel
  · subst hx
    rw [hfull]
    exact List.take_prefix _ _
  · rw [hothers x hx, sent_append]
    exact List.prefix_append _ _

/-- If a write is cut off, not everything fits. -/
theorem CutOff.not_fits (h : CutOff limit ws o) :
    ¬ ∀ x m, limit x = some m → (sent x ws).length ≤ m := by
  obtain ⟨before, w, after, m, rfl, -, hm, hcut, -, -⟩ := h
  intro hfits
  have hle := hfits w.channel m hm
  rw [List.append_cons, sent_append, List.length_append] at hle
  omega

end Deliver

/-! ## Consoles -/

/-- What is written for an event: the message about a failure, and the event in a format. -/
def Event.writes (format : Format) (e : Event) : List Write :=
  let message : List Write :=
    match e with
    | .failed p stage cause => [⟨.err, Utf8.encode (failureMessage p stage cause ++ ['\n'])⟩]
    | .enter _ | .found _ _ | .close _ => []
  message ++ (format.event? e).toList.map (.mk .out)

namespace Console

/-- An outlet of a console. -/
def outlet (c : Console) : Channel → Outlet
  | .out => c.out
  | .err => c.err

/-- What a console and its answer are after some writes. -/
structure Delivers (c : Console) (ws : List Write) (r : Console × Option Cause) : Prop where
  deliver : deliver c.outlet ws = (r.1.outlet, r.2)
  format : r.1.format = c.format
  filter : r.1.filter = c.filter

variable {c c' : Console} {ws ws' : List Write} {r : Console × Option Cause} {cause : Cause}

theorem update_out (c : Console) (p : Outlet) :
    Function.update c.outlet .out p = outlet { c with out := p } := by
  funext x
  cases x <;> rfl

theorem update_err (c : Console) (p : Outlet) :
    Function.update c.outlet .err p = outlet { c with err := p } := by
  funext x
  cases x <;> rfl

theorem Delivers.refl (c : Console) : c.Delivers [] (c, none) := ⟨rfl, rfl, rfl⟩

/-- A console that accepted some writes goes on from there. -/
theorem Delivers.append (h : c.Delivers ws (c', none)) (h' : c'.Delivers ws' r) :
    c.Delivers (ws ++ ws') r where
  deliver := by rw [deliver_append_ok h.deliver, h'.deliver]
  format := h'.format.trans h.format
  filter := h'.filter.trans h.filter

/-- A console that failed does nothing more. -/
theorem Delivers.append_failed (h : c.Delivers ws (c', some cause)) (ws' : List Write) :
    c.Delivers (ws ++ ws') (c', some cause) :=
  ⟨deliver_append_failed h.deliver ws', h.format, h.filter⟩

theorem Delivers.putErr (c : Console) (b : Bytes) :
    c.Delivers [⟨.err, b⟩] ({ c with err := (c.err.put b).1 }, (c.err.put b).2) where
  deliver := by
    rw [deliver_singleton]
    exact Prod.ext (update_err c _) rfl
  format := rfl
  filter := rfl

theorem Delivers.emit (c : Console) (b : Option Bytes) :
    c.Delivers (b.toList.map (.mk .out)) (c.emit b) := by
  cases b with
  | none => exact .refl c
  | some b =>
      refine ⟨?_, rfl, rfl⟩
      rw [Option.toList_some, List.map_singleton, deliver_singleton]
      exact Prod.ext (update_out c _) rfl

theorem Delivers.accept (c : Console) (e : Event) :
    c.Delivers (e.writes c.format) (c.accept e) := by
  cases e with
  | enter p => exact .emit c _
  | found p d => exact .emit c _
  | close p => exact .emit c _
  | failed p stage cause =>
      have herr := Delivers.putErr c
        (Utf8.encode (Event.failureMessage p stage cause ++ ['\n']))
      rcases hput : c.err.put (Utf8.encode (Event.failureMessage p stage cause ++ ['\n']))
        with ⟨err, _ | answer⟩
      · rw [hput] at herr
        simp only [Console.accept, hput]
        exact herr.append (.emit { c with err := err } _)
      · rw [hput] at herr
        simp only [Console.accept, hput]
        exact herr.append_failed _

/-- A note that is not shown is not written. -/
theorem Delivers.note (h : c.filter = .off) (n : Note) : c.Delivers [] (c.note n, none) := by
  have hshows : c.filter.shows n = false := by rw [h]; rfl
  refine ⟨?_, rfl, rfl⟩
  show (c.outlet, none) = ((c.note n).outlet, none)
  rw [Console.note, hshows]
  rfl

theorem Delivers.notes (h : c.filter = .off) (ns : List Note) :
    c.Delivers [] (ns.foldl Console.note c, none) := by
  induction ns generalizing c with
  | nil => exact .refl c
  | cons n ns ih =>
      have hnote := Delivers.note h n
      exact hnote.append (ih (hnote.filter.trans h))

/-- A console that shows no notes writes the events it is fed with. -/
theorem Delivers.feed (h : c.filter = .off) (l : List Signal) :
    c.Delivers ((Signal.events l).flatMap (Event.writes c.format)) (sink.feed c l) := by
  induction l generalizing c with
  | nil => exact .refl c
  | cons i l ih =>
      cases i with
      | note n =>
          have hnote := Delivers.note h n
          exact hnote.append (ih (hnote.filter.trans h))
      | event e =>
          have haccept := Delivers.accept c e
          rcases ha : c.accept e with ⟨c', _ | cause⟩
          · rw [ha] at haccept
            have hfeed : sink.feed c (.event e :: l) = sink.feed c' l := by
              rw [Sink.feed, show sink.accept c e = (c', none) from ha]
            have hrest := ih (c := c') (haccept.filter.trans h)
            rw [haccept.format] at hrest
            rw [hfeed]
            exact haccept.append hrest
          · rw [ha] at haccept
            have hfeed : sink.feed c (.event e :: l) = (c', some cause) := by
              rw [Sink.feed, show sink.accept c e = (c', some cause) from ha]
            rw [hfeed]
            exact haccept.append_failed _

end Console

/-! ## Runs -/

namespace Command

/-- All that a run writes for the events and the totals of its trace. -/
def writes (s : Settings) (es : List Event) (t : Tally) : List Write :=
  s.format.header?.toList.map (.mk .out) ++ es.flatMap (Event.writes s.format)
    ++ if s.summary then [⟨.err, Utf8.encode t.report⟩] else []

/-- A console on two outlets that shows no notes. -/
def quietConsole (s : Settings) (o : Channel → Outlet) : Console :=
  .fresh s.format (o .out) (o .err) .off

/-- A run ends with the totals if its console never failed, and with a failure otherwise. -/
def Returns (t : Tally) (answer : Option Cause) (result : Except Failure Tally) : Prop :=
  match answer with
  | none => result = .ok t
  | some _ => ∃ f, result = .error f

section Runs

variable {files : FileSystem} {fuel n : Nat} {s : Settings} {c : Console} {l : List Signal}
  {b : Walk.Position}

theorem conclude_delivers {w : Walk Console} (h : w.sink.filter = .off) :
    ∃ answer, w.sink.Delivers (if s.summary then [⟨.err, Utf8.encode w.tally.report⟩] else [])
        ((conclude s w).console, answer)
      ∧ Returns w.tally answer (conclude s w).result := by
  have hnotes := Console.Delivers.notes h (visitedNotes w.visited)
  cases hsummary : s.summary with
  | false =>
      refine ⟨none, ?_, ?_⟩
      · simpa [conclude, hsummary] using hnotes
      · simp [conclude, hsummary, Returns]
  | true =>
      have herr := hnotes.append (.putErr _ (Utf8.encode w.tally.report))
      rcases hput : ((visitedNotes w.visited).foldl Console.note w.sink).err.put
        (Utf8.encode w.tally.report) with ⟨err, answer⟩
      rw [hput] at herr
      refine ⟨answer, ?_, ?_⟩
      · cases answer <;> simpa [conclude, hsummary, hput] using herr
      · cases answer <;> simp [conclude, hsummary, hput, Returns]

/-- A run makes the writes of its trace, one after the other, until one fails. -/
theorem run_delivers (ht : Walk.TraceTo files s.maxDepth s.file .empty n l b)
    (hend : b.stack = []) (hn : n < fuel) (hformat : c.format = s.format)
    (hoff : c.filter = .off) :
    ∃ e answer, run files fuel s c = some e
      ∧ c.Delivers (writes s (Signal.events l) b.tally) (e.console, answer)
      ∧ Returns b.tally answer e.result := by
  have hheader := Console.Delivers.emit c c.format.header?
  rw [hformat] at hheader
  rw [run, writes, Console.writeHeader, hformat]
  rcases hc : c.emit s.format.header? with ⟨c₁, _ | cause⟩
  · rw [hc] at hheader
    have hoff₁ : c₁.filter = .off := hheader.filter.trans hoff
    obtain ⟨r, hr, hperforms⟩ := Walk.trace_performs (c := context files s) (s := c₁) ht
      (.inl ⟨hend, hn⟩)
    have hfeed := Console.Delivers.feed hoff₁ (l ++ [.note (.traceComplete b.tally)])
    have hevents : Signal.events (l ++ [.note (.traceComplete b.tally)]) = Signal.events l := by
      simp
    rw [hevents, hheader.format.trans hformat] at hfeed
    rcases hs : Console.sink.feed c₁ (l ++ [.note (.traceComplete b.tally)]) with ⟨c₂, _ | cause⟩
    · rw [hs] at hfeed
      have hw := hperforms.eq_ok hs
      subst hw
      obtain ⟨answer, hdelivers, hreturns⟩ :=
        conclude_delivers (s := s) (w := b.walk c₂) (hfeed.filter.trans hoff₁)
      refine ⟨conclude s (b.walk c₂), answer, by simp only [hr], ?_, hreturns⟩
      exact (hheader.append hfeed).append hdelivers
    · rw [hs] at hfeed
      obtain ⟨w, rfl, hw, -⟩ := hperforms.exists_eq_error hs
      refine ⟨abort s (w, cause), some cause, by simp only [hr], ?_, _, rfl⟩
      have hfailed := (hheader.append hfeed).append_failed
        (if s.summary then [⟨.err, Utf8.encode b.tally.report⟩] else [])
      rwa [abort, hw]
  · rw [hc] at hheader
    refine ⟨_, some cause, rfl, ?_, _, rfl⟩
    exact (hheader.append_failed _).append_failed _

/-- Runs with limited outlets: all writes fit, and the run gives totals, or one is cut off. -/
theorem run_cases (ht : Walk.TraceTo files s.maxDepth s.file .empty n l b)
    (hend : b.stack = []) (hn : n < fuel) (limit : Channel → Option Nat)
    (full : Channel → Cause) :
    ∃ e, run files fuel s (quietConsole s fun x => .taking (limit x) (full x)) = some e
      ∧ (e.result = .ok b.tally
          ∧ (∀ x, (e.console.outlet x).written = sent x (writes s (Signal.events l) b.tally))
          ∧ (∀ x m, limit x = some m → (sent x (writes s (Signal.events l) b.tally)).length ≤ m)
        ∨ (∃ f, e.result = .error f)
          ∧ CutOff limit (writes s (Signal.events l) b.tally) e.console.outlet) := by
  obtain ⟨e, answer, hrun, hdelivers, hreturns⟩ := run_delivers
    (c := quietConsole s fun x => .taking (limit x) (full x)) ht hend hn rfl rfl
  have hempty : ∀ x, Outlet.Took (limit x) (sent x [])
      ((quietConsole s fun x => .taking (limit x) (full x)).outlet x) := by
    intro x
    cases x <;> exact Outlet.took_taking _ _
  refine ⟨e, hrun, ?_⟩
  rcases deliver_cases (writes s (Signal.events l) b.tally) hempty with
    ⟨o, hdone, htook⟩ | ⟨o, cause, hdone, hcut⟩
  · obtain ⟨rfl, rfl⟩ := Prod.mk.inj (hdone.symm.trans hdelivers.deliver)
    exact .inl ⟨hreturns, fun x => (htook x).written, fun x => (htook x).fits⟩
  · obtain ⟨rfl, rfl⟩ := Prod.mk.inj (hdone.symm.trans hdelivers.deliver)
    exact .inr ⟨hreturns, hcut⟩

end Runs

/-- What limits do to the output of a run.  Without them, a run whose trace finishes makes all
writes of the trace and gives its totals.  With them, each outlet holds the beginning of that.  If
all fits, nothing is different.  Otherwise the run ends with the code three, at the first write that
does not fit: its outlet is full to the last byte, and the other one holds what was written to it
before. -/
theorem run_of_limits {σ : Type} {files : FileSystem} {fuel : Nat} {s : Settings} {k : Sink σ}
    {st : σ} {o : Walk.Outcome} (hs : k.NeverRefuses st)
    (h : Walk.outcome ⟨files, k, s.maxDepth⟩ fuel s.file .empty st = some o) :
    ∃ t e₀, o.result = .ok t
      ∧ run files fuel s (quietConsole s fun _ => .unlimited) = some e₀ ∧ e₀.result = .ok t
      ∧ (∀ x, (e₀.console.outlet x).written = sent x (writes s o.events t))
      ∧ ∀ (limit : Channel → Nat) (full : Channel → Cause), ∃ e,
        run files fuel s (quietConsole s fun x => .taking (some (limit x)) (full x)) = some e
          ∧ (∀ x, (e.console.outlet x).written <+: (e₀.console.outlet x).written)
          ∧ ((∃ t', e.result = .ok t') ↔ ∀ x, (e₀.console.outlet x).written.length ≤ limit x)
          ∧ ((∀ x, (e₀.console.outlet x).written.length ≤ limit x) →
            e.result = .ok t
              ∧ ∀ x, (e.console.outlet x).written = (e₀.console.outlet x).written)
          ∧ ((¬ ∀ x, (e₀.console.outlet x).written.length ≤ limit x) →
            e.exit.code = 3 ∧ ∃ before w after, writes s o.events t = before ++ w :: after
              ∧ (∀ x, (sent x before).length ≤ limit x)
              ∧ limit w.channel < (sent w.channel (before ++ [w])).length
              ∧ (e.console.outlet w.channel).written.length = limit w.channel
              ∧ ∀ x, x ≠ w.channel → (e.console.outlet x).written = sent x before) := by
  obtain ⟨n, l, b, ht, hend, hn, rfl⟩ := (Walk.outcome_eq_some_iff_of_neverRefuses hs).1 h
  obtain ⟨e₀, hrun₀, ⟨hresult₀, hwritten₀, -⟩ | ⟨-, hcut₀⟩⟩ :=
    run_cases ht hend hn (fun _ => none) fun _ => Outlet.diskFull
  · refine ⟨b.tally, e₀, rfl, hrun₀, hresult₀, hwritten₀, fun limit full => ?_⟩
    obtain ⟨e, hrun, hcases⟩ := run_cases ht hend hn (fun x => some (limit x)) full
    refine ⟨e, hrun, ?_⟩
    simp only [hwritten₀]
    rcases hcases with ⟨hresult, hwritten, hfits⟩ | ⟨⟨f, hresult⟩, hcut⟩
    · have hall : ∀ x, (sent x (writes s (Signal.events l) b.tally)).length ≤ limit x :=
        fun x => hfits x _ rfl
      exact ⟨fun x => hwritten x ▸ List.prefix_rfl, ⟨fun _ => hall, fun _ => ⟨_, hresult⟩⟩,
        fun _ => ⟨hresult, hwritten⟩, fun hnot => absurd hall hnot⟩
    · have hnot : ¬ ∀ x, (sent x (writes s (Signal.events l) b.tally)).length ≤ limit x := by
        intro hall
        refine hcut.not_fits fun x m hm => ?_
        cases hm
        exact hall x
      refine ⟨hcut.written_prefix, ⟨?_, fun hall => absurd hall hnot⟩,
        fun hall => absurd hall hnot, fun _ => ⟨by rw [Ending.exit, hresult]; rfl, ?_⟩⟩
      · rintro ⟨t', ht'⟩
        rw [hresult] at ht'
        cases ht'
      · obtain ⟨before, w, after, m, hws, hbefore, hm, hlong, hfull, hothers⟩ := hcut
        obtain rfl : limit w.channel = m := Option.some.inj hm
        refine ⟨before, w, after, hws, fun x => hbefore x _ rfl, hlong, ?_, hothers⟩
        have hle : limit w.channel ≤
            (sent w.channel (writes s (Signal.events l) b.tally)).length := by
          rw [hws, List.append_cons, sent_append, List.length_append]
          omega
        rw [hfull, List.length_take, Nat.min_eq_left hle]
  · obtain ⟨_, _, _, _, -, -, hm, -⟩ := hcut₀
    cases hm

/-- A run on the mutual files, whose output is in rows and ends with the totals. -/
def mutualSettings : Settings := ⟨.ofText "./m".toList, .csv, none, true, 0⟩

/-- With room for twenty bytes of messages, the message about the missing file is cut off.  With
room for a thousand bytes everything fits. -/
theorem run_of_limits_mutual :
    ∃ e₀ e e', run Walk.mutualFiles 20 mutualSettings
          (quietConsole mutualSettings fun _ => .unlimited) = some e₀
      ∧ run Walk.mutualFiles 20 mutualSettings (quietConsole mutualSettings fun x =>
          .taking (some (if x = .out then 1000 else 20)) Outlet.diskFull) = some e
      ∧ run Walk.mutualFiles 20 mutualSettings (quietConsole mutualSettings fun _ =>
          .taking (some 1000) Outlet.diskFull) = some e'
      ∧ e.exit.code = 3 ∧ (e.console.outlet .err).written.length = 20
      ∧ (e.console.outlet .out).written <+: (e₀.console.outlet .out).written
      ∧ e'.result = e₀.result
      ∧ ∀ x, (e'.console.outlet x).written = (e₀.console.outlet x).written := by
  have hmap : (Walk.outcome ⟨Walk.mutualFiles, Journal.sink, none⟩ 20 (.ofText "./m".toList) .empty
      (.empty none)).map (fun o => o.result.toOption.map fun t =>
        [Channel.out, .err].map fun x => (sent x (writes mutualSettings o.events t)).length) =
      some (some [379, 268]) := by decide +kernel
  obtain ⟨o, ho, hlengths⟩ := Option.map_eq_some_iff.1 hmap
  obtain ⟨t, e₀, hresult, hrun₀, hresult₀, hwritten₀, hlimits⟩ :=
    run_of_limits (s := mutualSettings) (Journal.neverRefuses_of_unlimited rfl) ho
  obtain ⟨hout, herr⟩ : (e₀.console.outlet .out).written.length = 379
      ∧ (e₀.console.outlet .err).written.length = 268 := by
    rw [hwritten₀, hwritten₀]
    simpa [hresult, Except.toOption] using hlengths
  obtain ⟨e, hrun, hbegins, -, -, hcut⟩ :=
    hlimits (fun x => if x = .out then 1000 else 20) fun _ => Outlet.diskFull
  obtain ⟨e', hrun', -, -, hsame, -⟩ := hlimits (fun _ => 1000) fun _ => Outlet.diskFull
  have hshort : ∀ x, (e₀.console.outlet x).written.length ≤ 1000 := by
    intro x
    cases x <;> omega
  obtain ⟨hresult', hwritten'⟩ := hsame hshort
  obtain ⟨hcode, before, w, after, hws, -, hlong, hfull, -⟩ := hcut fun hall => by
    have hle : (e₀.console.outlet .err).written.length ≤ 20 := hall .err
    omega
  refine ⟨e₀, e, e', hrun₀, hrun, hrun', hcode, ?_, hbegins .out, ?_, hwritten'⟩
  · cases hw : w.channel with
    | err =>
        rw [hw] at hfull
        exact hfull
    | out =>
        -- The rows have room enough.
        rw [hw] at hlong
        have hlong : 1000 < (sent .out (before ++ [w])).length := hlong
        have hrows := hshort .out
        rw [hwritten₀, hws, List.append_cons, sent_append, List.length_append] at hrows
        omega
  · rw [hresult', hresult₀]

end Command

end IncludeTrace
