import IncludeTrace.Cause

/-!
# Streams of lines

The bytes of a file arrive in *deliveries*.  A delivery brings bytes, fails, or
is interrupted.  One that brings no bytes is the end of the file at that point,
and so is the end of the list of deliveries.

A `LineStream` keeps the bytes that arrived and are not part of a line yet.  `next`
gives the next line.  It reads up to a newline or the end of the file, over as
many deliveries as that takes, and asks again after an interruption.  The
newline is cut off, together with one carriage return in front of it; a last
line without a newline is kept whole.  Bytes that are not UTF-8 are replaced.

The stream is finished once the end of the file is met with no byte before it,
and once a delivery fails.  In the second case the bytes of the line that was
begun are lost.  A finished stream gives nothing more.

`items` asks until nothing is given.  It ends because every item uses up a byte
or a delivery (`size_next_lt`).
-/

namespace IncludeTrace

/-- One read of a file. -/
inductive Delivery where
  /-- Bytes, or the end of the file if there are none. -/
  | bytes (b : Bytes)
  /-- The read fails. -/
  | fault (c : Cause)
  /-- The read is interrupted and can be made again. -/
  | interrupted
deriving DecidableEq

namespace Delivery

/-- What a delivery adds to the work of a stream. -/
def size : Delivery → Nat
  | .bytes b => b.length + 1
  | .fault _ => 1
  | .interrupted => 1

/-- Bytes in portions of at most `capacity`.  There is one portion if the bytes fit. -/
def portions (capacity : Nat) (b : Bytes) : List Bytes :=
  if capacity = 0 ∨ b.length ≤ capacity then [b]
  else b.take capacity :: portions capacity (b.drop capacity)
termination_by b.length
decreasing_by
  rw [List.length_drop]
  omega

/-- The deliveries a buffer of `capacity` bytes makes of one. -/
def divide (capacity : Nat) : Delivery → List Delivery
  | .bytes b => (portions capacity b).map .bytes
  | d => [d]

end Delivery

/-- A line, or the failure that ended the reading. -/
abbrev LineItem := Except Cause Text

/-- A stream of lines. -/
structure LineStream where
  /-- The bytes that arrived and are not part of a line yet. -/
  buffer : Bytes
  /-- The deliveries to come. -/
  deliveries : List Delivery
  /-- Whether the stream gives nothing more. -/
  finished : Bool
deriving DecidableEq

namespace LineStream

/-- The byte that ends a line. -/
def newline : UInt8 := 0x0A

/-- The byte that goes with a newline. -/
def carriageReturn : UInt8 := 0x0D

/-- The number of bytes the buffer takes in at once. -/
def capacity : Nat := 8192

/-- The lines of a file. -/
def ofDeliveries (ds : List Delivery) : LineStream :=
  ⟨[], ds.flatMap (Delivery.divide capacity), false⟩

/-- The bytes up to and with the next newline, or up to the end of the file.  `line` holds the
bytes of the line so far.  The other results are the buffer and the deliveries left. -/
def pull (line buffer : Bytes) (ds : List Delivery) :
    Except Cause Bytes × Bytes × List Delivery :=
  match buffer.dropWhile (· != newline) with
  | _ :: rest => (.ok (line ++ buffer.takeWhile (· != newline) ++ [newline]), rest, ds)
  | [] =>
      match ds with
      | [] => (.ok (line ++ buffer), [], [])
      | .bytes [] :: ds => (.ok (line ++ buffer), [], ds)
      | .bytes b :: ds => pull (line ++ buffer) b ds
      | .fault c :: ds => (.error c, [], ds)
      | .interrupted :: ds => pull (line ++ buffer) [] ds
termination_by structural ds

/-- A line without its newline, and without a carriage return before the newline. -/
def chomp (line : Bytes) : Bytes :=
  if line.getLast? = some newline then
    if line.dropLast.getLast? = some carriageReturn then line.dropLast.dropLast
    else line.dropLast
  else line

/-- The next line or failure, and the stream after it. -/
def next (r : LineStream) : Option LineItem × LineStream :=
  if r.finished then (none, r)
  else
    match pull [] r.buffer r.deliveries with
    | (.error c, buffer, ds) => (some (.error c), ⟨buffer, ds, true⟩)
    | (.ok [], buffer, ds) => (none, ⟨buffer, ds, true⟩)
    | (.ok line, buffer, ds) => (some (.ok (Utf8.decode (chomp line))), ⟨buffer, ds, false⟩)

/-- The work left in some deliveries. -/
def workOf : List Delivery → Nat
  | [] => 0
  | d :: ds => d.size + workOf ds

/-- The work left: the bytes in the buffer, the bytes to come and the deliveries to come. -/
def size (r : LineStream) : Nat := r.buffer.length + workOf r.deliveries

/-- A pull takes the line it gives out of the work left. -/
theorem pull_ok_work {line buffer raw buffer' : Bytes} {ds ds' : List Delivery}
    (h : pull line buffer ds = (.ok raw, buffer', ds')) :
    raw.length + (buffer'.length + workOf ds') ≤ line.length + (buffer.length + workOf ds) := by
  have hsplit := List.takeWhile_append_dropWhile (p := (· != newline)) (l := buffer)
  fun_induction pull line buffer ds with
  | case1 line buffer ds b rest hd =>
    have hl := congrArg List.length hsplit
    rw [hd] at hl
    obtain ⟨rfl, rfl, rfl⟩ : _ ∧ _ ∧ _ := by simpa using h
    simp at hl ⊢
    omega
  | case2 line buffer hd =>
    obtain ⟨rfl, rfl, rfl⟩ : _ ∧ _ ∧ _ := by simpa using h
    simp [workOf]
  | case3 line buffer ds hd =>
    obtain ⟨rfl, rfl, rfl⟩ : _ ∧ _ ∧ _ := by simpa using h
    simp [workOf]
    omega
  | case4 line buffer ds b hb hd ih =>
    have := ih h (List.takeWhile_append_dropWhile ..)
    simp [workOf, Delivery.size] at this ⊢
    omega
  | case5 => simp at h
  | case6 line buffer ds hd ih =>
    have := ih h (List.takeWhile_append_dropWhile ..)
    simp [workOf, Delivery.size] at this ⊢
    omega

/-- A pull that fails has used up a delivery. -/
theorem pull_error_work {line buffer buffer' : Bytes} {c : Cause} {ds ds' : List Delivery}
    (h : pull line buffer ds = (.error c, buffer', ds')) :
    buffer'.length + workOf ds' < buffer.length + workOf ds := by
  fun_induction pull line buffer ds with
  | case1 | case2 | case3 => simp at h
  | case4 line buffer ds b hb hd ih =>
    have := ih h
    simp [workOf, Delivery.size] at this ⊢
    omega
  | case5 line buffer d ds hd =>
    obtain ⟨_, rfl, rfl⟩ : _ ∧ _ ∧ _ := by simpa using h
    simp [workOf, Delivery.size]
    omega
  | case6 line buffer ds hd ih =>
    have := ih h
    simp [workOf, Delivery.size] at this ⊢
    omega

/-- Every item a stream gives makes the work left smaller. -/
theorem size_next_lt {r r' : LineStream} {i : LineItem} (h : r.next = (some i, r')) :
    r'.size < r.size := by
  unfold next at h
  split at h
  · simp at h
  · split at h
    · rename_i c buffer ds hp
      obtain ⟨_, rfl⟩ : _ ∧ _ := by simpa using h
      exact pull_error_work hp
    · simp at h
    · rename_i line buffer ds hne hp
      obtain ⟨_, rfl⟩ : _ ∧ _ := by simpa using h
      have := pull_ok_work hp
      have : 0 < line.length := List.length_pos_iff.2 hne
      simp [size] at *
      omega

/-- The items a stream gives until it gives none, behind those in `given` (newest first), and
the stream at the end. -/
def drain (given : List LineItem) (r : LineStream) : List LineItem × LineStream :=
  match _h : r.next with
  | (none, r') => (given.reverse, r')
  | (some i, r') => drain (i :: given) r'
termination_by r.size
decreasing_by exact size_next_lt (by assumption)

/-- The items a stream gives. -/
def items (r : LineStream) : List LineItem := (r.drain []).1

end LineStream

end IncludeTrace
