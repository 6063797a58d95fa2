import IncludeTrace.Proofs.Formats
import IncludeTrace.Proofs.Grammar
import IncludeTrace.Proofs.TextLines

/-!
# Plain output in lines

The plain lines of a trace show paths and lines of files as they are.  Nothing is
escaped, so a newline in one of them would look like the end of a line.  There is
none, provided that the root and the wording of the failures have none:

* a stream of lines cuts at every newline, and decoding does not make new ones, so
  there is none in a line (`LineStream.given_of_mem_items`) nor in a target, which is
  a part of a line (`Scan.oneLine_of_mem`);
* a path that is resolved is made of a path, a target and slashes
  (`Path.OneLine.resolve`);
* every file the walk is in was reached from the root in this way
  (`Walk.TraceTo.oneLine`).

So each line of the output is about one event, and it can be told from its beginning
what kind of event that is.
-/

namespace IncludeTrace

open LineStream (newline)

/-! ## Streams -/

namespace LineStream

variable {line buffer buffer' raw : Bytes} {ds ds' : List Delivery} {c : Cause}
  {r r' : LineStream} {i : LineItem}

theorem newline_notMem_takeWhile (b : Bytes) : newline ∉ b.takeWhile (· != newline) :=
  fun h => by simpa using List.mem_takeWhile_imp h

theorem newline_notMem_append (hline : newline ∉ line)
    (h : buffer.dropWhile (· != newline) = []) : newline ∉ line ++ buffer :=
  List.not_mem_append hline fun hmem => by simpa using List.dropWhile_eq_nil_iff.1 h newline hmem

/-- A newline can only be the last byte of what is pulled. -/
theorem exists_of_pull_ok (h : pull line buffer ds = (.ok raw, buffer', ds'))
    (hline : newline ∉ line) : ∃ l, newline ∉ l ∧ (raw = l ∨ raw = l ++ [newline]) := by
  fun_induction pull line buffer ds with
  | case1 ds line buffer b rest hd =>
      cases h
      exact ⟨_, List.not_mem_append hline (newline_notMem_takeWhile _), .inr rfl⟩
  | case2 line buffer hd =>
      cases h
      exact ⟨_, newline_notMem_append hline hd, .inl rfl⟩
  | case3 line buffer hd ds =>
      cases h
      exact ⟨_, newline_notMem_append hline hd, .inl rfl⟩
  | case4 line buffer hd b ds hb ih => exact ih h (newline_notMem_append hline hd)
  | case5 => cases h
  | case6 line buffer hd ds ih => exact ih h (newline_notMem_append hline hd)

/-- A pull that fails has met a delivery that fails. -/
theorem fault_mem_of_pull (h : pull line buffer ds = (.error c, buffer', ds')) :
    .fault c ∈ ds := by
  fun_induction pull line buffer ds with
  | case1 | case2 | case3 => cases h
  | case4 line buffer hd b ds hb ih => exact List.mem_cons_of_mem _ (ih h)
  | case5 line buffer hd c ds =>
      cases h
      exact List.mem_cons_self
  | case6 line buffer hd ds ih => exact List.mem_cons_of_mem _ (ih h)

/-- A pull takes deliveries from the front. -/
theorem pull_suffix (line buffer : Bytes) (ds : List Delivery) :
    (pull line buffer ds).2.2 <:+ ds := by
  fun_induction pull line buffer ds with
  | case1 => exact List.suffix_rfl
  | case2 => exact List.suffix_rfl
  | case3 line buffer hd ds => exact List.suffix_cons _ _
  | case4 line buffer hd b ds hb ih => exact ih.trans (List.suffix_cons _ _)
  | case5 line buffer hd c ds => exact List.suffix_cons _ _
  | case6 line buffer hd ds ih => exact ih.trans (List.suffix_cons _ _)

/-- An item that a stream can give: a line without a newline, or a failure to be delivered. -/
def Given (ds : List Delivery) : LineItem → Prop
  | .ok t => '\n' ∉ t
  | .error c => .fault c ∈ ds

theorem Given.mono (h : Given ds i) (hds : ds <:+ ds') : Given ds' i := by
  cases i with
  | ok t => exact h
  | error c => exact hds.mem h

theorem newline_notMem_chomp {l : Bytes} (hl : newline ∉ l) (h : raw = l ∨ raw = l ++ [newline]) :
    newline ∉ chomp raw := by
  rcases h with rfl | rfl
  · rwa [chomp, if_neg fun hlast => hl (List.mem_of_getLast? hlast)]
  · rw [chomp, if_pos (List.getLast?_concat ..), List.dropLast_concat]
    split
    · exact fun hmem => hl (List.dropLast_subset _ hmem)
    · exact hl

theorem given_of_next (h : r.next = (some i, r')) :
    Given r.deliveries i ∧ r'.deliveries <:+ r.deliveries := by
  have hsuffix := pull_suffix [] r.buffer r.deliveries
  rw [next] at h
  split at h
  · cases h
  · split at h
    · rename_i c buffer ds hpull
      cases h
      rw [hpull] at hsuffix
      exact ⟨fault_mem_of_pull hpull, hsuffix⟩
    · cases h
    · rename_i line buffer ds hne hpull
      cases h
      rw [hpull] at hsuffix
      obtain ⟨l, hl, hraw⟩ := exists_of_pull_ok hpull List.not_mem_nil
      exact ⟨Content.newline_notMem_decode (newline_notMem_chomp hl hraw), hsuffix⟩

theorem given_of_mem_items (r : LineStream) : ∀ i ∈ r.items, Given r.deliveries i := by
  -- Every item makes the work left smaller, and the deliveries left are some of those before.
  induction hn : r.size using Nat.strongRecOn generalizing r with
  | _ n ih =>
      subst hn
      rcases h : r.next with ⟨_ | i, r'⟩
      · rw [items_of_none h]
        exact fun _ hi => absurd hi List.not_mem_nil
      · obtain ⟨hgiven, hsuffix⟩ := given_of_next h
        rw [items_of_some h, List.forall_mem_cons]
        exact ⟨hgiven, fun j hj => (ih _ (size_next_lt h) r' rfl j hj).mono hsuffix⟩

/-- The failures are delivered whatever the size of the buffer. -/
theorem fault_mem_of_divide {capacity : Nat}
    (h : .fault c ∈ ds.flatMap (Delivery.divide capacity)) : .fault c ∈ ds := by
  obtain ⟨d, hd, hmem⟩ := List.mem_flatMap.1 h
  cases d with
  | bytes b => simp [Delivery.divide] at hmem
  | fault c' =>
      rw [List.mem_singleton.1 hmem]
      exact hd
  | interrupted => cases List.mem_singleton.1 hmem

end LineStream

/-! ## Scans -/

/-- The line and the target of a directive have no newline. -/
structure Located.OneLine (x : Located) : Prop where
  line : '\n' ∉ x.directive.line
  target : '\n' ∉ x.directive.target

theorem Directive.subset_of_ofLine? {l : Text} {d : Directive} (h : ofLine? l = some d) :
    d.line = l ∧ d.target ⊆ l := by
  obtain ⟨w, rest, hreading, hline⟩ := ofLine?_eq_some_iff.1 h
  refine ⟨hline, fun c hc => ?_⟩
  rw [hreading.line_eq]
  simp [hc]

namespace Scan

variable {ds : List Delivery} {x : Located} {c : Cause}

theorem oneLine_of_mem (h : x ∈ (ofDeliveries ds).directives) : x.OneLine := by
  obtain ⟨-, l, hl, hx⟩ := mem_locate.1 h
  obtain ⟨i, hi, hil⟩ := List.mem_filterMap.1 (List.mem_of_getElem? hl)
  have hmem := (List.takeWhile_prefix _).subset hi
  have hgiven := LineStream.given_of_mem_items _ i hmem
  cases i with
  | error c => cases hil
  | ok t =>
      cases hil
      obtain ⟨hline, htarget⟩ := Directive.subset_of_ofLine? hx
      exact ⟨hline ▸ hgiven, fun hc => hgiven (htarget hc)⟩

theorem fault_mem (h : (ofDeliveries ds).fault = some c) : .fault c ∈ ds := by
  obtain ⟨i, hi, hc⟩ := List.exists_of_findSome?_eq_some h
  have hgiven := LineStream.given_of_mem_items _ i hi
  cases i with
  | ok t => cases hc
  | error c' =>
      cases hc
      exact LineStream.fault_mem_of_divide hgiven

end Scan

/-! ## Paths -/

namespace Path

variable {p q : Path} {c : Component} {cs : List Component} {t : Text}

/-- There is no newline in the spelling. -/
def OneLine (p : Path) : Prop := newline ∉ p.bytes

theorem newline_notMem_slash : newline ∉ [slash] := by decide

theorem OneLine.segments (h : p.OneLine) : ∀ s ∈ p.segments, newline ∉ s := by
  intro s hs hmem
  have hbytes := (mem_intercalate newline_notMem_slash p.segments).2 ⟨s, hs, hmem⟩
  rw [Path.segments, List.intercalate_splitOn] at hbytes
  exact h hbytes

theorem OneLine.components (h : p.OneLine) (hc : c ∈ p.components) : newline ∉ c.segment := by
  cases c with
  | root => decide
  | here => decide
  | up => decide
  | name n =>
      have hname : .name n ∈ p.segments.filterMap Component.ofSegment? := by
        rw [Path.components] at hc
        split at hc
        · exact List.mem_of_ne_of_mem (by simp) hc
        · split at hc
          · exact List.mem_of_ne_of_mem (by simp) hc
          · exact hc
      obtain ⟨s, hs, hsn⟩ := List.mem_filterMap.1 hname
      rw [Component.ofSegment?] at hsn
      split at hsn
      · cases hsn
      · split at hsn
        · cases hsn
        · cases hsn
          exact h.segments n hs

theorem OneLine.ofComponents (h : ∀ c ∈ cs, newline ∉ c.segment) :
    (Path.ofComponents cs).OneLine := by
  have hspelling {ds : List Component} (hds : ∀ c ∈ ds, newline ∉ c.segment) :
      newline ∉ [slash].intercalate (ds.map Component.segment) := by
    rw [mem_intercalate newline_notMem_slash]
    rintro ⟨s, hs, hmem⟩
    obtain ⟨c, hc, rfl⟩ := List.mem_map.1 hs
    exact hds c hc hmem
  unfold Path.ofComponents
  split
  · exact List.not_mem_cons_of_ne_of_not_mem (by decide)
      (hspelling fun c hc => h c (List.mem_cons_of_mem _ hc))
  · exact hspelling h

theorem OneLine.parent (h : p.OneLine) : (p.parent?.getD empty).OneLine := by
  rw [parent?]
  split
  · exact List.not_mem_nil
  · exact List.not_mem_nil
  · exact .ofComponents fun c hc => h.components (List.dropLast_subset _ hc)

theorem OneLine.join (hp : p.OneLine) (hq : q.OneLine) : (p.join q).OneLine := by
  rw [Path.join]
  split
  · exact hq
  · split
    · exact List.not_mem_append hp hq
    · exact List.not_mem_append hp (List.not_mem_cons_of_ne_of_not_mem (by decide) hq)

theorem OneLine.ofText (h : '\n' ∉ t) : (Path.ofText t).OneLine :=
  fun hmem => h (Utf8.ofNat_mem_of_mem_encode (by decide) hmem)

theorem OneLine.normalize (h : p.OneLine) : p.normalize.OneLine := by
  rw [Path.normalize, ofNormal.eq_def]
  split
  · show newline ∉ Component.dot
    decide
  · exact .ofComponents fun c hc => h.components (Component.mem_of_mem_normalForm hc)

/-- A target without a newline leads from a path without a newline to one without a newline. -/
theorem OneLine.resolve (h : p.OneLine) (ht : '\n' ∉ t) : (p.resolve t).OneLine :=
  (h.parent.join (.ofText ht)).normalize

theorem OneLine.display (h : p.OneLine) : '\n' ∉ p.display := Content.newline_notMem_decode h

end Path

/-! ## Walks -/

/-- No failure of the files is worded with a newline. -/
structure FileSystem.OneLineCauses (files : FileSystem) : Prop where
  opening : ∀ p c, files p = .error c → '\n' ∉ c.text
  reading : ∀ p ds c, files p = .ok ds → .fault c ∈ ds → '\n' ∉ c.text

/-- What an event tells has no newline. -/
def Event.OneLine : Event → Prop
  | .enter p => p.OneLine
  | .found p d => p.OneLine ∧ d.OneLine
  | .failed p _ c => p.OneLine ∧ '\n' ∉ c.text
  | .close p => p.OneLine

/-- What a file leads to has no newline. -/
structure OpenFile.OneLine (f : OpenFile) : Prop where
  path : f.path.OneLine
  pending : ∀ d ∈ f.pending, d.OneLine
  fault : ∀ c, f.fault = some c → '\n' ∉ c.text

theorem OpenFile.OneLine.closing {p : Path} {pending : List Located} {fault : Option Cause}
    {depth : Nat} (h : OneLine ⟨p, pending, fault, depth⟩) :
    ∀ e ∈ OpenFile.closing p fault, e.OneLine := by
  intro e he
  rcases List.mem_append.1 he with he | he
  · obtain ⟨c, hc, rfl⟩ := List.mem_map.1 he
    exact ⟨h.path, h.fault c (Option.mem_toList.1 hc)⟩
  · rw [List.mem_singleton.1 he]
    exact h.path

namespace Walk

variable {files : FileSystem} {limit : Option Nat} {p root : Path} {depth n : Nat}
  {b b' : Position} {l : List Signal} {es : List Event}

/-- The events so far have no newline, and the files the walk is in do not lead to one. -/
structure OneLine (es : List Event) (b : Position) : Prop where
  events : ∀ e ∈ es, e.OneLine
  stack : ∀ f ∈ b.stack, f.OneLine

theorem Enters.oneLine (hfiles : files.OneLineCauses) (hp : p.OneLine)
    (h : Enters files p depth b l b') (hb : OneLine es b) :
    OneLine (es ++ Signal.events l) b' := by
  cases h with
  | again hv =>
      exact ⟨List.forall_mem_append.2 ⟨hb.events, List.forall_mem_singleton.2 hp⟩, hb.stack⟩
  | @missing cause hv hf =>
      have hfailed : Event.OneLine (.failed p .opening cause) := ⟨hp, hfiles.opening p cause hf⟩
      have hevents : ∀ e ∈ [Event.enter p, .failed p .opening cause], e.OneLine :=
        List.forall_mem_cons.2 ⟨hp, List.forall_mem_singleton.2 hfailed⟩
      exact ⟨List.forall_mem_append.2 ⟨hb.events, hevents⟩, hb.stack⟩
  | @opened deliveries hv hf =>
      refine ⟨List.forall_mem_append.2 ⟨hb.events, List.forall_mem_singleton.2 hp⟩,
        List.forall_mem_cons.2 ⟨?_, hb.stack⟩⟩
      exact ⟨hp, fun d hd => Scan.oneLine_of_mem hd,
        fun c hc => hfiles.reading p deliveries c hf (Scan.fault_mem hc)⟩

/-- A directive is found and taken off. -/
theorem OneLine.found {v : Visited} {t t' : Tally} {d : Located} {ds : List Located}
    {fault : Option Cause} {rest : List OpenFile}
    (h : OneLine es ⟨v, t, ⟨p, d :: ds, fault, depth⟩ :: rest⟩) :
    p.OneLine ∧ d.OneLine
      ∧ OneLine (es ++ [.found p d]) ⟨v, t', ⟨p, ds, fault, depth⟩ :: rest⟩ := by
  obtain ⟨⟨hp, hpending, hfault⟩, hrest⟩ := List.forall_mem_cons.1 h.stack
  obtain ⟨hd, hds⟩ := List.forall_mem_cons.1 hpending
  have hfound : Event.OneLine (.found p d) := ⟨hp, hd⟩
  exact ⟨hp, hd, List.forall_mem_append.2 ⟨h.events, List.forall_mem_singleton.2 hfound⟩,
    List.forall_mem_cons.2 ⟨⟨hp, hds, hfault⟩, hrest⟩⟩

theorem Move.oneLine (hfiles : files.OneLineCauses) (h : Move files limit b l b')
    (hb : OneLine es b) : OneLine (es ++ Signal.events l) b' := by
  cases h with
  | leave =>
      obtain ⟨hf, hrest⟩ := List.forall_mem_cons.1 hb.stack
      refine ⟨?_, hrest⟩
      rw [Signal.events_map_event]
      exact List.forall_mem_append.2 ⟨hb.events, hf.closing⟩
  | skip hd => exact hb.found.2.2
  | limited hd hl => exact hb.found.2.2
  | follow hd hl he =>
      obtain ⟨hp, hd, hb'⟩ := hb.found
      rw [Signal.events_event, List.append_cons]
      exact he.oneLine hfiles (hp.resolve hd.target) hb'

theorem TraceTo.oneLine (hfiles : files.OneLineCauses) (hroot : root.OneLine) {v : Visited}
    (h : TraceTo files limit root v n l b) : ∀ e ∈ Signal.events l, e.OneLine := by
  cases h with
  | intro he hm =>
      have hinit : OneLine [] (.init v) := ⟨by simp, by simp [Position.init]⟩
      have hentered := he.oneLine hfiles hroot hinit
      have hmoved := hm.invariant (fun _ _ _ _ hstep hb => hstep.oneLine hfiles hb) hentered
      simpa using hmoved.events

end Walk

/-! ## Lines of output -/

/-- Texts without a newline, each with one behind it, can be told apart when they are encoded. -/
theorem splitOn_encode_lines {ls : List Text} (h : ∀ l ∈ ls, '\n' ∉ l) :
    (Utf8.encode (ls.flatMap (· ++ ['\n']))).splitOn newline = ls.map Utf8.encode ++ [[]] := by
  have hencode : Utf8.encode (ls.flatMap (· ++ ['\n'])) =
      (ls.map Utf8.encode).flatMap (· ++ [newline]) ++ [] := by
    simp only [Utf8.encode, List.flatMap_assoc, List.flatMap_append, List.flatMap_map,
      List.append_nil]
    rfl
  have hlines : ∀ l ∈ ls.map Utf8.encode, newline ∉ l := by
    intro l hl hmem
    obtain ⟨t, ht, rfl⟩ := List.mem_map.1 hl
    exact h t ht (Utf8.ofNat_mem_of_mem_encode (by decide) hmem)
  rw [hencode, splitOn_terminated hlines List.not_mem_nil]

/-- Events that are written as lines, if they are written at all, can be told apart. -/
theorem splitOn_encode_events {line? : Event → Option Text} {g : Event → Text} {es : List Event}
    (hg : ∀ e, g e = ((line? e).map (· ++ ['\n'])).getD [])
    (h : ∀ e ∈ es, ∀ l, line? e = some l → '\n' ∉ l) :
    (Utf8.encode (es.flatMap g)).splitOn newline =
      (es.filterMap line?).map Utf8.encode ++ [[]] := by
  have hlines : es.flatMap g = (es.filterMap line?).flatMap (· ++ ['\n']) := by
    rw [List.filterMap_eq_flatMap_toList, List.flatMap_assoc]
    refine List.flatMap_congr fun e _ => ?_
    rw [hg]
    cases line? e <;> simp
  rw [hlines, splitOn_encode_lines]
  intro l hl
  obtain ⟨e, he, hline⟩ := List.mem_filterMap.1 hl
  exact h e he l hline

namespace Event

variable {e : Event} {l : Text}

/-- The plain line for an event, without the newline behind it. -/
def line? : Event → Option Text
  | .enter p => some ("Processing ".toList ++ p.display)
  | .found p d =>
      some ("Found include: ".toList ++ (d.directive.line ++ " in ".toList ++ p.display))
  | .close p => some ("Closing ".toList ++ p.display)
  | .failed _ _ _ => none

/-- The message about a failure, without the newline behind it. -/
def message? : Event → Option Text
  | .failed p stage cause => some (failureMessage p stage cause)
  | .enter _ | .found _ _ | .close _ => none

theorem plain?_eq (e : Event) : e.plain? = e.line?.map (· ++ ['\n']) := by
  cases e with
  | enter p => rfl
  | found p d =>
      simp only [plain?, line?, Option.map_some, List.append_assoc]
      rfl
  | failed p stage cause => rfl
  | close p => rfl

theorem complaint_eq (e : Event) : e.complaint = (e.message?.map (· ++ ['\n'])).getD [] := by
  cases e <;> rfl

theorem OneLine.line (h : e.OneLine) (hl : e.line? = some l) : '\n' ∉ l := by
  cases e with
  | enter p =>
      cases hl
      exact List.not_mem_append (by decide) h.display
  | found p d =>
      cases hl
      obtain ⟨hp, hd⟩ := h
      exact List.not_mem_append (by decide)
        (List.not_mem_append (List.not_mem_append hd.line (by decide)) hp.display)
  | failed p stage cause => cases hl
  | close p =>
      cases hl
      exact List.not_mem_append (by decide) h.display

theorem OneLine.message (h : e.OneLine) (hl : e.message? = some l) : '\n' ∉ l := by
  cases e with
  | enter p => cases hl
  | found p d => cases hl
  | failed p stage cause =>
      cases hl
      obtain ⟨hp, hcause⟩ := h
      have hstage : '\n' ∉ "Error ".toList ++ stage.verb ++ " file ".toList := by
        cases stage <;> decide
      exact List.not_mem_append (List.not_mem_append (List.not_mem_append hstage hp.display)
        (by decide)) hcause
  | close p => cases hl

end Event

/-! ## Reading plain lines -/

/-- What can be told of an event from its plain line. -/
inductive Told where
  /-- A path is entered. -/
  | entered (path : Text)
  /-- A directive is found. -/
  | found
  /-- A path is closed. -/
  | closed (path : Text)
deriving DecidableEq

namespace Told

/-- What is told of an event that has a plain line. -/
def ofEvent? : Event → Option Told
  | .enter p => some (.entered p.display)
  | .found _ _ => some .found
  | .close p => some (.closed p.display)
  | .failed _ _ _ => none

/-- What a line tells, by its beginning. -/
def ofLine? (l : Text) : Option Told :=
  match "Processing ".toList.isPrefixOf? l with
  | some path => some (.entered path)
  | none =>
      match "Closing ".toList.isPrefixOf? l with
      | some path => some (.closed path)
      | none => if "Found include: ".toList.isPrefixOf l then some .found else none

/-- What is told by lines that each end in a newline. -/
def readLines? (b : Bytes) : Option (List Told) :=
  let pieces := b.splitOn newline
  if pieces.getLast? = some [] then
    pieces.dropLast.mapM fun l => (Utf8.decode? l).bind ofLine?
  else none

theorem ofLine?_line? {e : Event} {l : Text} (h : e.line? = some l) : ofLine? l = ofEvent? e := by
  cases e with
  | enter p =>
      cases h
      rfl
  | found p d =>
      cases h
      rfl
  | failed p stage cause => cases h
  | close p =>
      cases h
      rfl

/-- What is told of some events can be read from their lines. -/
theorem mapM_lines (es : List Event) :
    ((es.filterMap Event.line?).map Utf8.encode).mapM (fun l => (Utf8.decode? l).bind ofLine?) =
      some (es.filterMap ofEvent?) := by
  induction es with
  | nil => rfl
  | cons e es ih =>
      have hsome : (ofEvent? e).isSome = e.line?.isSome := by cases e <;> rfl
      cases h : e.line? with
      | none =>
          rw [h, Option.isSome_none, Option.isSome_eq_false_iff, Option.isNone_iff_eq_none] at hsome
          rw [List.filterMap_cons_none h, List.filterMap_cons_none hsome, ih]
      | some l =>
          rw [h, Option.isSome_some, Option.isSome_iff_exists] at hsome
          obtain ⟨told, htold⟩ := hsome
          have hread : ofLine? l = some told := (ofLine?_line? h).trans htold
          rw [List.filterMap_cons_some h, List.filterMap_cons_some htold, List.map_cons,
            List.mapM_cons, ih]
          simp [hread]

end Told

/-! ## Runs -/

namespace Command

variable {files : FileSystem} {fuel : Nat} {s : Settings}

/-- A run with plain output.  If neither the root nor the wording of a failure has a newline, no
event has one.  The output has one line for each event that is not a failure, in the order of the
events, and what kind of event it was and which path was entered or closed can be read from it.  If
no totals are asked for, the other outlet has one line for each failure. -/
theorem plain_output_by_lines {e : Ending} (hfiles : files.OneLineCauses) (hroot : s.file.OneLine)
    (h : runIn files fuel s .text = some e) :
    ∃ o, Walk.outcome (context files s) fuel s.file .empty
        (quietConsole { s with format := .text } fun _ => .unlimited) = some o
      ∧ (∀ event ∈ o.events, event.OneLine)
      ∧ e.console.out.written.splitOn newline =
        (o.events.filterMap Event.line?).map Utf8.encode ++ [[]]
      ∧ Told.readLines? e.console.out.written = some (o.events.filterMap Told.ofEvent?)
      ∧ (s.summary = false →
        e.console.err.written.splitOn newline =
          (o.events.filterMap Event.message?).map Utf8.encode ++ [[]]) := by
  have hquiet : (quietConsole { s with format := .text } fun _ => .unlimited).Unfailing :=
    ⟨⟨rfl, rfl⟩, ⟨rfl, rfl⟩⟩
  obtain ⟨n, l, b, ht, hend, hn⟩ := exists_traceTo_of_unfailing hquiet h
  obtain ⟨e', hrun, -, hout, herr⟩ := runIn_of_traceTo ht hend hn .text
  obtain rfl : e = e' := Option.some.inj (h.symm.trans hrun)
  have hevents : ∀ event ∈ Signal.events l, event.OneLine := ht.oneLine hfiles hroot
  have hlines : e.console.out.written.splitOn newline =
      ((Signal.events l).filterMap Event.line?).map Utf8.encode ++ [[]] := by
    rw [hout, Format.rendering_text]
    exact splitOn_encode_events (fun event => by rw [event.plain?_eq])
      fun event hmem _ hline => (hevents event hmem).line hline
  refine ⟨⟨Signal.events l, b.visited, .ok b.tally⟩, ?_, hevents, hlines, ?_, fun hsummary => ?_⟩
  · exact (Walk.outcome_eq_some_iff_of_neverRefuses fun l => (hquiet.feed l).2).2
      ⟨n, l, b, ht, hend, hn, rfl⟩
  · rw [Told.readLines?, hlines, List.getLast?_concat, List.dropLast_concat, Told.mapM_lines]
    rfl
  · rw [herr, if_neg (by simp [hsummary]), List.append_nil]
    exact splitOn_encode_events Event.complaint_eq
      fun event hmem _ hmessage => (hevents event hmem).message hmessage

/-- Every failure of the mutual files is one of the system. -/
theorem oneLineCauses_mutual : Walk.mutualFiles.OneLineCauses := by
  constructor
  · intro p c h
    rw [Walk.mutualFiles] at h
    split at h
    · cases h
    · split at h
      · cases h
      · cases h
        decide
  · intro p ds c h hmem
    rw [Walk.mutualFiles] at h
    split at h
    · cases h
      simp at hmem
    · split at h
      · cases h
        obtain rfl : c = .system 5 := by simpa using hmem
        decide
      · cases h

/-- Both outlets of a run on the mutual files. -/
theorem plain_output_by_lines_mutual :
    Walk.mutualFiles.OneLineCauses ∧ silentSettings.file.OneLine
      ∧ ∃ e, runIn Walk.mutualFiles 20 silentSettings .text = some e
        ∧ Told.readLines? e.console.out.written =
          some [.entered "./m".toList, .found, .entered "h".toList, .found, .entered "m".toList,
            .found, .entered "x".toList, .closed "h".toList, .closed "./m".toList]
        ∧ e.console.err.written.splitOn newline =
          [Utf8.encode "Error opening file x: No such file or directory (os error 2)".toList,
            Utf8.encode "Error reading file h: Input/output error (os error 5)".toList, []] := by
  have hroot : silentSettings.file.OneLine := by
    show newline ∉ Utf8.encode "./m".toList
    decide
  have hmap : (Walk.outcome (context Walk.mutualFiles silentSettings) 20 silentSettings.file .empty
      (quietConsole { silentSettings with format := .text } fun _ => .unlimited)).map (fun o =>
        (o.events.filterMap Told.ofEvent?, o.events.filterMap Event.message?)) =
      some ([.entered "./m".toList, .found, .entered "h".toList, .found, .entered "m".toList,
            .found, .entered "x".toList, .closed "h".toList, .closed "./m".toList],
        ["Error opening file x: No such file or directory (os error 2)".toList,
          "Error reading file h: Input/output error (os error 5)".toList]) := by
    decide +kernel
  have hsome : (runIn Walk.mutualFiles 20 silentSettings .text).isSome = true := by decide +kernel
  obtain ⟨e, he⟩ := Option.isSome_iff_exists.1 hsome
  obtain ⟨o, ho, -, -, hout, herr⟩ := plain_output_by_lines oneLineCauses_mutual hroot he
  rw [ho, Option.map_some, Option.some.injEq, Prod.mk.injEq] at hmap
  refine ⟨oneLineCauses_mutual, hroot, e, he, ?_, ?_⟩
  · rw [hout, hmap.1]
  · rw [herr rfl, hmap.2]
    rfl

end Command

end IncludeTrace
