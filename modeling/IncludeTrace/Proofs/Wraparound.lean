import IncludeTrace.Proofs.Budget
import IncludeTrace.Proofs.Decoding
import IncludeTrace.Proofs.Grammar
import IncludeTrace.Proofs.LinkFree
import IncludeTrace.Proofs.Resolution
import IncludeTrace.Proofs.Roots
import IncludeTrace.Proofs.TextLines

/-!
# A total that comes round to zero

The targets that a limit holds back are counted in a word of 64 bits, and nothing keeps their
number below `2 ^ 64`.  In the tree of this module `main.c` includes a number of names.  All
of them are links to one header, which has a number of quoted directives.  With a limit of
one, the header is read by each of its names, and none of its targets is followed.  So the
number of the targets that are held back is the product of the two numbers.

If both are `2 ^ 32`, the total comes round to zero, as if nothing had been held back.  The
trace without a limit is a different one all the same.
-/

namespace IncludeTrace

open Component (Inner IsName)
open LineStream (newline)

/-! ## Visits at the limit -/

namespace Walk

section AtLimit

variable {files : FileSystem} {limit : Option Nat} {depth : Nat} {p : Path} {g : Progress}
  {deliveries : List Delivery}

/-- The directives of a file at the limit are reported one after the other. -/
theorem foldlM_treat_at_limit (descend : Path → Nat → Progress → Option Progress)
    (hl : limit.any (· ≤ depth) = true) (p : Path) (ds : List Located) (g : Progress) :
    ∃ g', ds.foldlM (treat limit descend p depth) g = some g' ∧ g'.visited = g.visited ∧
      g'.events = g.events ++ ds.map (.found p) := by
  induction ds generalizing g with
  | nil => exact ⟨g, rfl, rfl, (List.append_nil _).symm⟩
  | cons d ds ih =>
      rw [List.foldlM_cons]
      cases hd : d.directive.isFollowed with
      | false =>
          obtain ⟨g', hfold, hv, hev⟩ := ih (g.emit (.found p d))
          refine ⟨g', ?_, hv, ?_⟩
          · rw [treat_skip hd]
            exact hfold
          · rw [hev]
            simp [Progress.emit]
      | true =>
          obtain ⟨g', hfold, hv, hev⟩ := ih (g.emit (.found p d)).limited
          refine ⟨g', ?_, hv, ?_⟩
          · rw [treat_limited hd hl]
            exact hfold
          · rw [hev]
            simp [Progress.emit, Progress.limited]

theorem Progress.visited_close (g : Progress) (p : Path) (fault : Option Cause) :
    (g.close p fault).visited = g.visited := by
  cases fault <;> rfl

/-- All that happens in a file at the limit is told by its script. -/
theorem visit_at_limit (hl : limit.any (· ≤ depth) = true)
    (hv : g.visited.contains p.normalize = false) (hf : files p = .ok deliveries) (n : Nat) :
    ∃ g', visit files limit (n + 1) p depth g = some g' ∧
      g'.visited = g.visited.insert p.normalize ∧
      g'.events = g.events ++ .enter p :: script files p := by
  obtain ⟨g₁, hfold, hvisited, hev⟩ := foldlM_treat_at_limit (visit files limit n) hl p
    (Scan.ofDeliveries deliveries).directives (((g.emit (.enter p)).mark p.normalize).opened depth)
  refine ⟨g₁.close p (Scan.ofDeliveries deliveries).fault, ?_, ?_, ?_⟩
  · rw [visit_opened hv hf, hfold, Option.map_some]
  · rw [Progress.visited_close, hvisited]
    rfl
  · rw [Progress.events_close, hev, script, hf]
    simp [Progress.emit, Progress.mark, Progress.opened]

/-- What happens in a file right above the limit, if its targets are all opened by it. -/
theorem foldlM_treat_above_limit (hl : limit.any (· ≤ depth) = false)
    (hl' : limit.any (· ≤ depth + 1) = true) (n : Nat) {ds : List Located}
    (hds : ∀ d ∈ ds, d.directive.isFollowed = true ∧
      (files (p.resolve d.directive.target)).isOk = true ∧
      g.visited.contains (p.resolve d.directive.target) = false)
    (hdistinct : ds.Pairwise fun d e =>
      (p.resolve d.directive.target).components ≠ (p.resolve e.directive.target).components) :
    ∃ g', ds.foldlM (treat limit (visit files limit (n + 1)) p depth) g = some g' ∧
      g'.events = g.events ++ ds.flatMap fun d =>
        .found p d :: .enter (p.resolve d.directive.target) ::
          script files (p.resolve d.directive.target) := by
  induction ds generalizing g with
  | nil => exact ⟨g, rfl, (List.append_nil _).symm⟩
  | cons d ds ih =>
      obtain ⟨hd, hok, hv⟩ := hds d (.head _)
      obtain ⟨hne, hdistinct⟩ := List.pairwise_cons.1 hdistinct
      cases hf : files (p.resolve d.directive.target) with
      | error cause =>
          rw [hf] at hok
          cases hok
      | ok deliveries =>
          rw [← Path.normalize_resolve] at hv
          obtain ⟨g₁, hvisit, hvisited, hev₁⟩ :=
            visit_at_limit (g := g.emit (.found p d)) hl' hv hf n
          have hrest : ∀ e ∈ ds, e.directive.isFollowed = true ∧
              (files (p.resolve e.directive.target)).isOk = true ∧
              g₁.visited.contains (p.resolve e.directive.target) = false := by
            intro e he
            obtain ⟨hfollowed, hopens, hnew⟩ := hds e (.tail _ he)
            refine ⟨hfollowed, hopens, ?_⟩
            rw [hvisited, Visited.contains_insert, Path.normalize_resolve, Bool.or_eq_false_iff]
            exact ⟨hnew, beq_false_of_ne (hne e he)⟩
          obtain ⟨g', hfold, hev⟩ := ih hrest hdistinct
          refine ⟨g', ?_, ?_⟩
          · rw [List.foldlM_cons, treat_follow hd hl, hvisit]
            exact hfold
          · rw [hev, hev₁]
            simp [Progress.emit]

end AtLimit

end Walk

/-! ## Files of quoted directives -/

/-- The line that includes a target. -/
def quotedLine (t : Text) : Text := "#include \"".toList ++ t ++ ['"']

/-- A file with a line for each target. -/
def quotedFile (targets : List Text) : Bytes :=
  targets.flatMap fun t => Utf8.encode (quotedLine t) ++ [newline]

/-- The directives of such a file, if the first line has the number `first`. -/
def quotedDirectives (first : Nat) (targets : List Text) : List Located :=
  (targets.zipIdx first).map fun (t, n) => ⟨n, quotedLine t, t, .quoted⟩

/-- A text can be included by a line of its own. -/
structure IsTarget (t : Text) : Prop where
  ne_nil : t ≠ []
  quote_notMem : '"' ∉ t
  newline_notMem : '\n' ∉ t

section Quoted

variable {t : Text} {targets : List Text} {first : Nat} {d : Located}

theorem ofLine?_quotedLine (h : IsTarget t) :
    Directive.ofLine? (quotedLine t) = some ⟨quotedLine t, t, .quoted⟩ := by
  refine Directive.ofLine?_eq_some_iff.2 ⟨[' '], [], ⟨?_, by simp, ?_, h.ne_nil, ?_⟩, rfl⟩
  · rw [List.append_nil]
    rfl
  · intro c hc
    rw [List.mem_singleton.1 hc]
    exact isBlank_iff.1 (by decide)
  · exact h.quote_notMem

theorem locate_quotedLines (h : ∀ t ∈ targets, IsTarget t) (first : Nat) :
    Scan.locate first (targets.map quotedLine) = quotedDirectives first targets := by
  induction targets generalizing first with
  | nil => rfl
  | cons t targets ih =>
      rw [List.map_cons, Scan.locate_cons, ofLine?_quotedLine (h t (.head _)),
        ih fun t ht => h t (.tail _ ht)]
      rfl

theorem newline_notMem_quotedLine (h : IsTarget t) : newline ∉ Utf8.encode (quotedLine t) := by
  intro hmem
  have hchar : '\n' ∈ quotedLine t := Utf8.ofNat_mem_of_mem_encode (by decide) hmem
  rcases List.mem_append.1 hchar with hchar | hchar
  rcases List.mem_append.1 hchar with hchar | hchar
  · exact absurd hchar (by decide)
  · exact h.newline_notMem hchar
  · exact absurd hchar (by decide)

theorem textOf_quotedLine (t : Text) :
    LineStream.textOf (Utf8.encode (quotedLine t) ++ [newline]) = quotedLine t := by
  have hlast : (quotedLine t).getLast? = some '"' := List.getLast?_concat
  rw [LineStream.textOf_terminated, Content.decode_withoutReturn, Utf8.decode_encode,
    Text.withoutReturn, if_neg (by rw [hlast]; decide)]

theorem lines_quotedFile (h : ∀ t ∈ targets, IsTarget t) :
    Content.lines (quotedFile targets) none = targets.map quotedLine := by
  have hlines : ∀ l ∈ targets.map fun t => Utf8.encode (quotedLine t), newline ∉ l := by
    intro l hl
    obtain ⟨t, ht, rfl⟩ := List.mem_map.1 hl
    exact newline_notMem_quotedLine (h t ht)
  have hfile : quotedFile targets =
      (targets.map fun t => Utf8.encode (quotedLine t)).flatMap (· ++ [newline]) ++ [] := by
    rw [List.append_nil, List.flatMap_map]
    rfl
  rw [Content.lines, hfile, LineStream.terminated_eq hlines List.not_mem_nil,
    LineStream.unterminated_eq hlines List.not_mem_nil, if_pos rfl, List.append_nil, List.map_map]
  exact List.map_congr_left fun t _ => textOf_quotedLine t

theorem scan_quotedFile (h : ∀ t ∈ targets, IsTarget t) :
    Scan.ofDeliveries [.bytes (quotedFile targets)] =
      ⟨quotedDirectives 1 targets, targets.length, none⟩ := by
  rw [Scan.ofDeliveries_eq (.single _), lines_quotedFile h, locate_quotedLines h, List.length_map]

theorem map_target_quotedDirectives (first : Nat) (targets : List Text) :
    (quotedDirectives first targets).map (·.directive.target) = targets := by
  rw [quotedDirectives, List.map_map]
  exact List.zipIdx_map_fst first targets

theorem length_quotedDirectives (first : Nat) (targets : List Text) :
    (quotedDirectives first targets).length = targets.length := by
  simp [quotedDirectives]

theorem target_mem (h : d ∈ quotedDirectives first targets) : d.directive.target ∈ targets := by
  rw [← map_target_quotedDirectives first targets]
  exact List.mem_map_of_mem h

theorem isFollowed_of_mem (h : d ∈ quotedDirectives first targets) :
    d.directive.isFollowed = true := by
  obtain ⟨⟨t, n⟩, -, rfl⟩ := List.mem_map.1 h
  rfl

end Quoted

/-! ## Paths of one name -/

section OneName

variable {n n' : Bytes} {t : Tree} {b : Bytes}

theorem Path.components_name (h : IsName n) : Path.components ⟨n⟩ = [.name n] := by
  have hinner : ∀ c ∈ [Component.name n], Inner c := by simpa using Inner.name h
  simpa [Component.segment] using Path.components_inner hinner (by simp)

theorem Path.normalize_name (h : IsName n) : Path.normalize ⟨n⟩ = ⟨n⟩ := by
  have hcanonical : Canonical ⟨n⟩ := by
    simpa using @Canonical.relative 0 [n] (by simpa using h) (by simp)
  exact canonical_iff.1 hcanonical

theorem Move.ofPath_name (h : IsName n) : Move.ofPath ⟨n⟩ = [.down n] := by
  have hinner : ∀ c ∈ [Component.name n], Inner c := by simpa using Inner.name h
  simpa [Component.segment, Component.move?] using Move.ofPath_inner hinner (by simp)

/-- What a walk from the root to a name reads. -/
theorem Tree.read_name (hn : IsName n) (hzero : 0 ∉ n) (hlength : n.length ≤ maxName) {l : Location}
    (hwalk : t.walk maxLinks [] [.down n] = .ok l) (h : t.entry? l = some (.file b)) :
    t.read [] ⟨n⟩ = .ok [.bytes b] := by
  have hshort : ¬pathLimit ≤ n.length := Nat.not_le.2 (Nat.lt_of_le_of_lt hlength (by decide))
  have hbase : base [] ⟨n⟩ = [] := ite_self []
  have hlocate : t.locate [] ⟨n⟩ = .ok l := by rw [locate, hbase, Move.ofPath_name hn, hwalk]
  simp [read, hzero, hn.ne_nil, hshort, hlocate, h]

theorem Tree.walk_file (links : Nat) (hlength : n.length ≤ maxName)
    (h : t.entry? [n] = some (.file b)) : t.walk links [] [.down n] = .ok [n] := by
  have hroot : t.entry? [] = some .directory := rfl
  simp [walk, hroot, Nat.not_lt.2 hlength, h]

/-- A link in the root directory leads to the name it holds. -/
theorem Tree.walk_link (links : Nat) (hlength : n.length ≤ maxName)
    (h : t.entry? [n] = some (.link n')) (hn' : IsName n') :
    t.walk (links + 1) [] [.down n] = t.walk links [] [.down n'] := by
  have hroot : t.entry? [] = some .directory := rfl
  have hbase : base [] ⟨n'⟩ = [] := ite_self []
  rw [walk]
  simp [hroot, Nat.not_lt.2 hlength, h, hbase, Move.ofPath_name hn']

end OneName

/-! ## A header with many names -/

/-- The words of `k` letters, each of them an `a` or a `b`. -/
def words : Nat → List Text
  | 0 => [[]]
  | k + 1 => (words k).map ('a' :: ·) ++ (words k).map ('b' :: ·)

section Words

variable {k : Nat} {w : Text} {c : Char}

theorem length_words (k : Nat) : (words k).length = 2 ^ k := by
  induction k with
  | zero => rfl
  | succ k ih =>
      rw [words, List.length_append, List.length_map, List.length_map, ih]
      omega

theorem nodup_words (k : Nat) : (words k).Nodup := by
  induction k with
  | zero => simp [words]
  | succ k ih =>
      have hcons (c : Char) : ((words k).map (c :: ·)).Nodup :=
        ih.map fun _ _ h => (List.cons.inj h).2
      refine List.nodup_append.2 ⟨hcons 'a', hcons 'b', ?_⟩
      rintro _ ha _ hb rfl
      obtain ⟨w, -, rfl⟩ := List.mem_map.1 ha
      obtain ⟨w', -, heq⟩ := List.mem_map.1 hb
      exact absurd (List.cons.inj heq).1 (by decide)

theorem length_and_letters_of_mem_words (h : w ∈ words k) :
    w.length = k ∧ ∀ c ∈ w, c ∈ ['a', 'b'] := by
  induction k generalizing w with
  | zero =>
      rw [List.mem_singleton.1 h]
      exact ⟨rfl, fun _ hc => absurd hc List.not_mem_nil⟩
  | succ k ih =>
      obtain ⟨c, w, rfl, hc, hw⟩ : ∃ c w', w = c :: w' ∧ c ∈ ['a', 'b'] ∧ w' ∈ words k := by
        rcases List.mem_append.1 h with h | h
        all_goals
          obtain ⟨w, hw, rfl⟩ := List.mem_map.1 h
          exact ⟨_, w, rfl, by decide, hw⟩
      obtain ⟨hlength, hletters⟩ := ih hw
      exact ⟨congrArg (· + 1) hlength, List.forall_mem_cons.2 ⟨hc, hletters⟩⟩

theorem notMem_encode_of_mem_words {x : UInt8} (h : w ∈ words k) (hx : x.toNat < 128)
    (hletter : Char.ofNat x.toNat ∉ ['a', 'b']) : x ∉ Utf8.encode w := fun hmem =>
  hletter ((length_and_letters_of_mem_words h).2 _ (Utf8.ofNat_mem_of_mem_encode hx hmem))

theorem length_encode_of_mem_words (h : w ∈ words k) : (Utf8.encode w).length = k := by
  obtain ⟨rfl, hletters⟩ := length_and_letters_of_mem_words h
  clear h
  induction w with
  | nil => rfl
  | cons c w ih =>
      obtain ⟨hc, hw⟩ := List.forall_mem_cons.1 hletters
      have hone : (String.utf8EncodeChar c).length = 1 := by
        rcases List.mem_pair.1 hc with rfl | rfl <;> decide
      rw [Utf8.encode_cons, List.length_append, hone, ih hw, List.length_cons, Nat.add_comm]

theorem ne_nil_of_mem_words (hk : 0 < k) (h : w ∈ words k) : w ≠ [] := by
  rintro rfl
  exact absurd (length_and_letters_of_mem_words h).1 hk.ne

/-- A word is not a name with other letters. -/
theorem encode_ne_of_mem_words (h : w ∈ words k) {x : UInt8} {n : Bytes} (hmem : x ∈ n)
    (hx : x.toNat < 128) (hletter : Char.ofNat x.toNat ∉ ['a', 'b']) : Utf8.encode w ≠ n := by
  rintro rfl
  exact notMem_encode_of_mem_words h hx hletter hmem

theorem isName_of_mem_words (hk : 0 < k) (h : w ∈ words k) : IsName (Utf8.encode w) where
  ne_nil := Utf8.encode_ne_nil (ne_nil_of_mem_words hk h)
  ne_dot := encode_ne_of_mem_words h (.head _) (by decide) (by decide)
  ne_dots := encode_ne_of_mem_words h (.head _) (by decide) (by decide)
  slash_notMem := notMem_encode_of_mem_words h (by decide) (by decide)

theorem isTarget_of_mem_words (hk : 0 < k) (h : w ∈ words k) : IsTarget w where
  ne_nil := ne_nil_of_mem_words hk h
  quote_notMem hmem := absurd ((length_and_letters_of_mem_words h).2 _ hmem) (by decide)
  newline_notMem hmem := absurd ((length_and_letters_of_mem_words h).2 _ hmem) (by decide)

end Words

namespace Tree

/-- The file that includes the header by all its names. -/
def manyMain : Path := .ofText "main.c".toList

/-- The header. -/
def manyHeader : Path := .ofText "h".toList

/-- A header of `m` quoted directives, with the words of `k` letters for links to it, and a file
that includes them all. -/
def manyNames (k m : Nat) : Tree :=
  ⟨([manyMain.bytes], .file (quotedFile (words k))) ::
    ([manyHeader.bytes], .file (quotedFile (List.replicate m ['x']))) ::
    (words k).map fun w => ([Utf8.encode w], .link manyHeader.bytes)⟩

section ManyNames

variable {k : Nat} {w : Text}

theorem lookup_map_of_mem {ws : List Text} (h : w ∈ ws) (e : Entry) :
    (ws.map fun w => ([Utf8.encode w], e)).lookup [Utf8.encode w] = some e := by
  induction ws with
  | nil => exact absurd h List.not_mem_nil
  | cons w' ws ih =>
      rw [List.map_cons, List.lookup_cons]
      split
      · rfl
      · rename_i hne
        rcases List.mem_cons.1 h with rfl | h
        · simp at hne
        · exact ih h

theorem word_ne_manyMain (h : w ∈ words k) : Utf8.encode w ≠ manyMain.bytes :=
  encode_ne_of_mem_words h (List.mem_cons_self (a := 0x6D)) (by decide) (by decide)

theorem word_ne_manyHeader (h : w ∈ words k) : Utf8.encode w ≠ manyHeader.bytes :=
  encode_ne_of_mem_words h (List.mem_cons_self (a := 0x68)) (by decide) (by decide)

theorem entry_singleton (t : Tree) (n : Bytes) : t.entry? [n] = t.entries.lookup [n] := rfl

theorem entry_manyMain (k m : Nat) :
    entry? (manyNames k m) [manyMain.bytes] = some (.file (quotedFile (words k))) := by
  rw [entry_singleton, manyNames, List.lookup_cons_self]

theorem entry_manyHeader (k m : Nat) : entry? (manyNames k m) [manyHeader.bytes] =
    some (.file (quotedFile (List.replicate m ['x']))) := by
  have hne : ([manyHeader.bytes] == [manyMain.bytes]) = false := by decide
  rw [entry_singleton, manyNames, List.lookup_cons, hne, List.lookup_cons_self]

theorem entry_word (h : w ∈ words k) (m : Nat) :
    entry? (manyNames k m) [Utf8.encode w] = some (.link manyHeader.bytes) := by
  have hmain : ([Utf8.encode w] == [manyMain.bytes]) = false :=
    beq_false_of_ne fun heq => word_ne_manyMain h (List.cons.inj heq).1
  have hheader : ([Utf8.encode w] == [manyHeader.bytes]) = false :=
    beq_false_of_ne fun heq => word_ne_manyHeader h (List.cons.inj heq).1
  rw [entry_singleton, manyNames, List.lookup_cons, hmain, List.lookup_cons, hheader]
  exact lookup_map_of_mem h _

theorem isName_manyMain : IsName manyMain.bytes := ⟨by decide, by decide, by decide, by decide⟩

theorem isName_manyHeader : IsName manyHeader.bytes :=
  ⟨by decide, by decide, by decide, by decide⟩

theorem read_manyMain (k m : Nat) :
    (manyNames k m).fileSystem [] manyMain = .ok [.bytes (quotedFile (words k))] :=
  read_name isName_manyMain (by decide) (by decide)
    (walk_file _ (by decide) (entry_manyMain k m)) (entry_manyMain k m)

theorem read_word (hk : 0 < k) (hmax : k ≤ maxName) (h : w ∈ words k) (m : Nat) :
    (manyNames k m).fileSystem [] ⟨Utf8.encode w⟩ =
      .ok [.bytes (quotedFile (List.replicate m ['x']))] := by
  have hlength : (Utf8.encode w).length ≤ maxName := by rwa [length_encode_of_mem_words h]
  have hwalk : (manyNames k m).walk maxLinks [] [.down (Utf8.encode w)] = .ok [manyHeader.bytes] :=
    (walk_link _ hlength (entry_word h m) isName_manyHeader).trans
      (walk_file _ (by decide) (entry_manyHeader k m))
  exact read_name (isName_of_mem_words hk h) (notMem_encode_of_mem_words h (by decide) (by decide))
    hlength hwalk (entry_manyHeader k m)

theorem resolve_word (hk : 0 < k) (h : w ∈ words k) : manyMain.resolve w = ⟨Utf8.encode w⟩ := by
  have hdirectory : manyMain.directory = Path.empty := by decide
  rw [Path.resolve_eq, hdirectory, Path.empty_join]
  exact Path.normalize_name (isName_of_mem_words hk h)

theorem components_resolve_word (hk : 0 < k) (h : w ∈ words k) :
    (manyMain.resolve w).components = [.name (Utf8.encode w)] := by
  rw [resolve_word hk h, Path.components_name (isName_of_mem_words hk h)]

end ManyNames

end Tree

/-! ## The trace of the tree -/

namespace Walk

open Signal (events)
open IncludeTrace.Tree (manyNames manyMain)

section Counts

variable {files : FileSystem} {p : Path} {targets : List Text}

theorem countP_flatMap_of_forall {ds : List Located} {f : Located → List Event} {q : Event → Bool}
    {c : Nat} (h : ∀ d ∈ ds, (f d).countP q = c) : (ds.flatMap f).countP q = ds.length * c := by
  induction ds with
  | nil => simp
  | cons d ds ih =>
      obtain ⟨hd, hds⟩ := List.forall_mem_cons.1 h
      rw [List.flatMap_cons, List.countP_append, hd, ih hds, List.length_cons, Nat.succ_mul,
        Nat.add_comm]

/-- The script of a file of quoted directives enters nothing. -/
theorem countP_script (h : ∀ t ∈ targets, IsTarget t)
    (hf : files p = .ok [.bytes (quotedFile targets)]) :
    (script files p).countP Event.isEnter = 0 ∧
      (script files p).countP Event.isQuoted = targets.length := by
  have hquoted : (quotedDirectives 1 targets).countP (Event.isQuoted ∘ .found p) =
      (quotedDirectives 1 targets).length :=
    List.countP_eq_length.2 fun d hd => isFollowed_of_mem hd
  rw [script, hf]
  simp only [scan_quotedFile h, OpenFile.closing, List.countP_append, List.countP_map]
  refine ⟨by simp [List.countP_eq_zero], ?_⟩
  rw [hquoted, length_quotedDirectives]
  rfl

end Counts

section ManyNames

variable {k : Nat} {d : Located}

theorem isTarget_of_mem_replicate {m : Nat} {t : Text} (h : t ∈ List.replicate m ['x']) :
    IsTarget t := by
  rw [List.eq_of_mem_replicate h]
  exact ⟨by decide, by decide, by decide⟩

/-- The header is read by each of its names. -/
theorem read_target (hk : 0 < k) (hmax : k ≤ Tree.maxName) (m : Nat)
    (hd : d ∈ quotedDirectives 1 (words k)) :
    (manyNames k m).fileSystem [] (manyMain.resolve d.directive.target) =
      .ok [.bytes (quotedFile (List.replicate m ['x']))] := by
  rw [Tree.resolve_word hk (target_mem hd)]
  exact Tree.read_word hk hmax (target_mem hd) m

/-- The names are different from the name of the file. -/
theorem target_new (hk : 0 < k) (hd : d ∈ quotedDirectives 1 (words k)) :
    (Visited.empty.insert manyMain.normalize).contains (manyMain.resolve d.directive.target) =
      false := by
  have hmain : manyMain.normalize.components = [.name manyMain.bytes] := by
    rw [Path.normalize_name Tree.isName_manyMain]
    exact Path.components_name Tree.isName_manyMain
  rw [Visited.contains_insert, Visited.contains_empty, Bool.false_or, hmain,
    Tree.components_resolve_word hk (target_mem hd)]
  refine beq_false_of_ne fun heq => ?_
  have hbytes : Utf8.encode d.directive.target = manyMain.bytes := by simpa using heq.symm
  exact Tree.word_ne_manyMain (target_mem hd) hbytes

/-- And they are different from each other. -/
theorem pairwise_target (hk : 0 < k) : (quotedDirectives 1 (words k)).Pairwise fun d e =>
    (manyMain.resolve d.directive.target).components ≠
      (manyMain.resolve e.directive.target).components := by
  have hnodup := nodup_words k
  rw [← map_target_quotedDirectives 1 (words k), List.Nodup, List.pairwise_map] at hnodup
  refine hnodup.imp_of_mem fun {d e} hd he hne heq => hne ?_
  rw [Tree.components_resolve_word hk (target_mem hd),
    Tree.components_resolve_word hk (target_mem he)] at heq
  have hbytes : Utf8.encode d.directive.target = Utf8.encode e.directive.target := by simpa using heq
  rw [← Utf8.decode_encode d.directive.target, hbytes, Utf8.decode_encode]

/-- What happens for one of the names. -/
def turn (files : FileSystem) (d : Located) : List Event :=
  .found manyMain d :: .enter (manyMain.resolve d.directive.target) ::
    script files (manyMain.resolve d.directive.target)

theorem countP_turn (hk : 0 < k) (hmax : k ≤ Tree.maxName) (m : Nat)
    (hd : d ∈ quotedDirectives 1 (words k)) :
    (turn ((manyNames k m).fileSystem []) d).countP Event.isEnter = 1 ∧
      (turn ((manyNames k m).fileSystem []) d).countP Event.isQuoted = 1 + m := by
  obtain ⟨henter, hquoted⟩ :=
    countP_script (fun _ => isTarget_of_mem_replicate) (read_target hk hmax m hd)
  rw [List.length_replicate] at hquoted
  have hfound : Event.isQuoted (.found manyMain d) = true := isFollowed_of_mem hd
  refine ⟨?_, ?_⟩
  · rw [turn, List.countP_cons_of_neg (by simp), List.countP_cons_of_pos rfl, henter]
  · rw [turn, List.countP_cons_of_pos hfound, List.countP_cons_of_neg (by simp), hquoted,
      Nat.add_comm]

/-- With a limit of one the names are entered, and the targets in the header are held back by
each of them. -/
theorem visit_manyMain (hk : 0 < k) (hmax : k ≤ Tree.maxName) (m : Nat) :
    ∃ g, visit ((manyNames k m).fileSystem []) (some 1) 2 manyMain 0 (.init .empty) = some g ∧
      g.events.countP Event.isEnter = 1 + 2 ^ k ∧
      g.events.countP Event.isQuoted = 2 ^ k * (1 + m) := by
  have habove : (some 1 : Option Nat).any (· ≤ 0) = false := rfl
  obtain ⟨g, hfold, hev⟩ := foldlM_treat_above_limit
    (g := (((Progress.init .empty).emit (.enter manyMain)).mark manyMain.normalize).opened 0)
    habove rfl 0
    (fun d hd => ⟨isFollowed_of_mem hd, congrArg Except.isOk (read_target hk hmax m hd),
      target_new hk hd⟩)
    (pairwise_target hk)
  have hevents : (g.close manyMain none).events =
      .enter manyMain ::
        (quotedDirectives 1 (words k)).flatMap (turn ((manyNames k m).fileSystem [])) ++
          [.close manyMain] := by
    rw [Progress.events_close, hev]
    rfl
  have hnumber : (quotedDirectives 1 (words k)).length = 2 ^ k := by
    rw [length_quotedDirectives, length_words]
  refine ⟨g.close manyMain none, ?_, ?_, ?_⟩
  · rw [visit_opened (Visited.contains_empty _) (Tree.read_manyMain k m),
      scan_quotedFile fun t ht => isTarget_of_mem_words hk ht, hfold]
    rfl
  · rw [hevents, List.countP_append, List.countP_cons_of_pos rfl,
      countP_flatMap_of_forall fun d hd => (countP_turn hk hmax m hd).1, hnumber]
    simp [Nat.add_comm]
  · rw [hevents, List.countP_append, List.countP_cons_of_neg (by simp),
      countP_flatMap_of_forall fun d hd => (countP_turn hk hmax m hd).2, hnumber]
    simp

end ManyNames

section Totals

variable {files : FileSystem} {root : Path} {v : Visited} {n limit : Nat} {l : List Signal}
  {b : Position}

/-- The targets that are held back are those that were found and not entered, up to multiples of
`2 ^ 64`. -/
theorem TraceTo.depthLimited_of_counts (ht : TraceTo files (some limit) root v n l b)
    {entered heldBack : Nat} (henter : (events l).countP Event.isEnter = 1 + entered)
    (hquoted : (events l).countP Event.isQuoted = entered + heldBack) :
    b.tally.depthLimited = .ofNat heldBack := by
  obtain ⟨s, hs⟩ := ht.balanced
  have hfollowed := hs.followed
  have hlimited : s.limited = heldBack := by omega
  rw [hs.sums.depthLimited, hlimited]

/-- If no target is counted and yet some were found that were not entered, the count has come round
at least once. -/
theorem TraceTo.le_countP_of_comes_round (ht : TraceTo files (some limit) root v n l b)
    (hend : b.stack = []) (hzero : b.tally.depthLimited = 0)
    (hheld : (events l).countP Event.isEnter ≠ 1 + (events l).countP Event.isQuoted) :
    2 ^ 64 ≤ (events l).countP (quotedAt (events l) limit) := by
  obtain ⟨hcount, hfree⟩ := ht.depthLimited_eq hend
  rw [← Nat.not_lt]
  intro hlt
  refine hheld (hfree ?_).countP_isEnter
  rw [← UInt64.toNat_ofNat_of_lt' hlt, ← hcount, hzero]
  rfl

end Totals

section ManyNames

variable {k m : Nat}

/-- The totals of the trace with a limit of one. -/
theorem exists_outcome_manyNames (hk : 0 < k) (hmax : k ≤ Tree.maxName) (m : Nat) :
    ∃ n l b, TraceTo ((manyNames k m).fileSystem []) (some 1) manyMain .empty n l b ∧
      b.stack = [] ∧ b.tally.depthLimited = .ofNat (2 ^ k * m) ∧
      (events l).countP Event.isEnter = 1 + 2 ^ k ∧
      (events l).countP Event.isQuoted = 2 ^ k + 2 ^ k * m ∧
      outcome ⟨(manyNames k m).fileSystem [], Journal.sink, some 1⟩ (manyNames k m).stepBound
        manyMain .empty (.empty none) = some ⟨events l, b.visited, .ok b.tally⟩ := by
  have hjournal := Journal.neverRefuses_of_unlimited (j := .empty none) rfl
  obtain ⟨o, ho⟩ := (manyNames k m).exists_outcome_of_stepBound [] Journal.sink (some 1) manyMain
    .empty (.empty none)
  obtain ⟨n, l, b, ht, hend, -, rfl⟩ := (outcome_eq_some_iff_of_neverRefuses hjournal).1 ho
  -- The trace does what the recursion does, and that is known.
  obtain ⟨steps, hsteps⟩ := exists_visit_iff.2 ⟨n, l, b, ht, hend, rfl⟩
  obtain ⟨g, hvisit, henter, hquoted⟩ := visit_manyMain hk hmax m
  have heq : some g = some ⟨events l, b.visited, b.tally⟩ :=
    (visit_mono hvisit (Nat.le_max_left 2 steps)).symm.trans
      (visit_mono hsteps (Nat.le_max_right 2 steps))
  cases heq
  rw [Nat.mul_add, Nat.mul_one] at hquoted
  exact ⟨n, l, b, ht, hend, ht.depthLimited_of_counts henter hquoted, henter, hquoted, ho⟩

/-- If the number of targets that are held back is a multiple of `2 ^ 64`, the total does not tell
them from none. -/
theorem depthLimited_eq_zero_of_dvd (hk : 0 < k) (hmax : k ≤ Tree.maxName) (hm : 0 < m)
    (hdvd : 2 ^ 64 ∣ 2 ^ k * m) :
    ∃ o t o',
      outcome ⟨(manyNames k m).fileSystem [], Journal.sink, some 1⟩ (manyNames k m).stepBound
          manyMain .empty (.empty none) = some o
        ∧ o.result = .ok t ∧ t.depthLimited = 0
        ∧ 2 ^ 64 ≤ o.events.countP (quotedAt o.events 1)
        ∧ outcome ⟨(manyNames k m).fileSystem [], Journal.sink, none⟩ (manyNames k m).stepBound
          manyMain .empty (.empty none) = some o'
        ∧ o'.result.isOk = true ∧ o'.events ≠ o.events := by
  have hjournal := Journal.neverRefuses_of_unlimited (j := .empty none) rfl
  obtain ⟨n, l, b, ht, hend, hlimited, henter, hquoted, ho⟩ := exists_outcome_manyNames hk hmax m
  obtain ⟨o', ho'⟩ := (manyNames k m).exists_outcome_of_stepBound [] Journal.sink none manyMain
    .empty (.empty none)
  obtain ⟨n', l', b', ht', -, -, rfl⟩ := (outcome_eq_some_iff_of_neverRefuses hjournal).1 ho'
  have hzero : b.tally.depthLimited = 0 := by
    refine UInt64.toNat_inj.1 ?_
    rw [hlimited, UInt64.toNat_ofNat', Nat.mod_eq_zero_of_dvd hdvd]
    rfl
  have hheld : (events l).countP Event.isEnter ≠ 1 + (events l).countP Event.isQuoted := by
    have hpos : 0 < 2 ^ k * m := Nat.mul_pos (Nat.two_pow_pos k) hm
    omega
  refine ⟨_, b.tally, _, ho, rfl, hzero, ht.le_countP_of_comes_round hend hzero hheld, ho', rfl, ?_⟩
  intro (heq : events l' = events l)
  exact hheld (heq ▸ ht'.countP_isEnter)

end ManyNames

/-- With `2 ^ 32` names and `2 ^ 32` directives in the header, a limit of one holds back so many
targets that the total comes round to zero.  The trace without a limit has other events. -/
theorem depthLimited_wraps :
    ∃ o t o',
      outcome ⟨(manyNames 32 (2 ^ 32)).fileSystem [], Journal.sink, some 1⟩
          (manyNames 32 (2 ^ 32)).stepBound manyMain .empty (.empty none) = some o
        ∧ o.result = .ok t ∧ t.depthLimited = 0
        ∧ 2 ^ 64 ≤ o.events.countP (quotedAt o.events 1)
        ∧ outcome ⟨(manyNames 32 (2 ^ 32)).fileSystem [], Journal.sink, none⟩
          (manyNames 32 (2 ^ 32)).stepBound manyMain .empty (.empty none) = some o'
        ∧ o'.result.isOk = true ∧ o'.events ≠ o.events :=
  depthLimited_eq_zero_of_dvd (by decide) (by decide) (by decide) (by decide)

end Walk

end IncludeTrace
