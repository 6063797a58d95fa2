import IncludeTrace.Proofs.Account
import IncludeTrace.Proofs.Outcome
import IncludeTrace.Tree
import Mathlib.Tactic.SplitIfs

/-!
# Trees without links

Files are told apart by the normal forms of their paths, and these are made without
a look at the directory tree.  Where there are links this can go wrong: `link/..` is
the directory above the one that the link leads to, but its normal form is the
directory of the link.  Here it is shown that nothing else can go wrong.

`Tree.Leads` says where components lead, one after the other, in a tree without
links.  To take back a name is to leave a directory by `up` that was entered by this
name, `up` at the root stays at the root, and every other `up` is kept.  So at each
component, the normal form of what was read leads to where the walk is
(`Leads.push`), and a path and its normal form lead to the same place
(`Leads.normalize`).  The walk of an operating system is brought to components by
`leads_of_locate`, and back by `locate_ofNormal`.

A trace passes over a path if its normal form is among the visited paths, and opens
it otherwise (`Walk.TraceTo.told_eq_script`).
-/

namespace IncludeTrace

open Component (Inner Normal normalForm)

/-! ## Components and moves -/

namespace Component

/-- The move an inner component stands for. -/
def move? : Component → Option Move
  | .root | .here => none
  | .up => some .up
  | .name n => some (.down n)

end Component

namespace Move

variable {cs : List Component}

/-- The component a move stands for.  To stay is to do nothing. -/
def component? : Move → Option Component
  | .stay => none
  | .up => some .up
  | .down n => some (.name n)

theorem component_ofSegment? (b : Bytes) :
    Component.ofSegment? b = (ofSegment? b).bind component? := by
  unfold Component.ofSegment? ofSegment?
  split_ifs <;> simp_all [component?]

/-- The moves of a path are its components, the first one aside. -/
theorem filterMap_ofPath (p : Path) :
    (ofPath p).filterMap component? = p.segments.filterMap Component.ofSegment? := by
  have hstay : (if p.bytes.getLast? = some Path.slash then [stay] else []).filterMap
      component? = [] := by
    split <;> rfl
  rw [ofPath, List.filterMap_append, hstay, List.append_nil, List.filterMap_filterMap,
    ← funext component_ofSegment?]

/-- A normal form is spelled without a slash at the end, unless it is the root. -/
theorem exists_getLast?_spelling (hcs : ∀ c ∈ cs, Inner c) (hne : cs ≠ []) :
    ∃ b, ([Path.slash].intercalate (cs.map Component.segment)).getLast? = some b
      ∧ b ≠ Path.slash := by
  induction cs with
  | nil => exact absurd rfl hne
  | cons c cs ih =>
      cases cs with
      | nil =>
          have hc := hcs c (.head _)
          refine ⟨c.segment.getLast hc.segment_ne_nil, ?_, fun hslash => hc.slash_notMem ?_⟩
          · simp [List.getLast?_eq_some_getLast hc.segment_ne_nil]
          · exact hslash ▸ List.getLast_mem _
      | cons d cs =>
          obtain ⟨b, hb, hslash⟩ := ih (fun e he => hcs e (.tail _ he)) (by simp)
          rw [List.map_cons] at hb
          refine ⟨b, ?_, hslash⟩
          rw [List.map_cons, List.map_cons, List.intercalate_cons_cons, List.getLast?_append, hb]
          rfl

theorem filterMap_move (hcs : ∀ c ∈ cs, Inner c) :
    (cs.map Component.segment).filterMap ofSegment? = cs.filterMap Component.move? := by
  have hmove {c : Component} (hc : Inner c) : ofSegment? c.segment = c.move? := by
    cases hc with
    | up => rfl
    | name hn => simp [ofSegment?, Component.segment, Component.move?, hn.ne_nil, hn.ne_dot,
        hn.ne_dots]
  induction cs with
  | nil => rfl
  | cons c cs ih =>
      rw [List.map_cons, List.filterMap_cons, List.filterMap_cons, hmove (hcs c (.head _)),
        ih fun d hd => hcs d (.tail _ hd)]

/-- The moves of inner components are those of their spelling. -/
theorem ofPath_inner (hcs : ∀ c ∈ cs, Inner c) (hne : cs ≠ []) :
    ofPath ⟨[Path.slash].intercalate (cs.map Component.segment)⟩ =
      cs.filterMap Component.move? := by
  obtain ⟨b, hb, hslash⟩ := exists_getLast?_spelling hcs hne
  simp [ofPath, Path.segments, Path.splitOn_spelling hcs hne, filterMap_move hcs, hb, hslash]

theorem ofPath_root (hcs : ∀ c ∈ cs, Inner c) (hne : cs ≠ []) :
    ofPath ⟨Path.slash :: [Path.slash].intercalate (cs.map Component.segment)⟩ =
      cs.filterMap Component.move? := by
  obtain ⟨b, hb, hslash⟩ := exists_getLast?_spelling hcs hne
  have hempty : ofSegment? [] = none := rfl
  simp [ofPath, Path.segments, List.splitOn_cons_eq_if_modifyHead,
    Path.splitOn_spelling hcs hne, filterMap_move hcs, hempty, List.getLast?_cons, hb, hslash]

end Move

namespace Tree

/-- No location holds a link. -/
def LinkFree (t : Tree) : Prop := ∀ l target, t.entry? l ≠ some (.link target)

theorem linkFree_of_entries {t : Tree} (h : ∀ x ∈ t.entries, ∀ target, x.2 ≠ .link target) :
    t.LinkFree := by
  intro l target hentry
  unfold entry? at hentry
  split at hentry
  · cases hentry
  · obtain ⟨before, after, hentries, -⟩ := List.lookup_eq_some_iff.1 hentry
    exact h (l, .link target) (by rw [hentries]; simp) target rfl

/-- Where one component goes in a tree without links.  There must be a directory to go on from, and
the directory above the root is the root. -/
inductive Goes (t : Tree) (l : Location) : Component → Location → Prop where
  | root : Goes t l .root []
  | here : t.entry? l = some .directory → Goes t l .here l
  | up : t.entry? l = some .directory → Goes t l .up l.dropLast
  | name {n : Bytes} {e : Entry} : t.entry? l = some .directory → t.entry? (l ++ [n]) = some e →
      Goes t l (.name n) (l ++ [n])

/-- Where some components lead, one after the other. -/
inductive Leads (t : Tree) : Location → List Component → Location → Prop where
  | done {l : Location} : Leads t l [] l
  | go {l m l' : Location} {c : Component} {cs : List Component} :
      Goes t l c m → Leads t m cs l' → Leads t l (c :: cs) l'

variable {t : Tree} {l l' m m' cwd : Location} {c : Component} {s cs cs' : List Component}
  {p q : Path} {links : Nat}

/-! ## Components and their normal forms -/

theorem leads_append_iff : t.Leads l (cs ++ cs') l' ↔ ∃ m, t.Leads l cs m ∧ t.Leads m cs' l' := by
  constructor
  · intro h
    induction cs generalizing l with
    | nil => exact ⟨l, .done, h⟩
    | cons c cs ih =>
        cases h with
        | go hc h =>
            obtain ⟨m, h₁, h₂⟩ := ih h
            exact ⟨m, .go hc h₁, h₂⟩
  · rintro ⟨m, h₁, h₂⟩
    induction h₁ with
    | done => exact h₂
    | go hc _ ih => exact .go hc (ih h₂)

theorem leads_concat_iff : t.Leads l (cs ++ [c]) l' ↔ ∃ m, t.Leads l cs m ∧ t.Goes m c l' := by
  rw [leads_append_iff]
  refine exists_congr fun m => and_congr_right fun _ => ⟨fun h => ?_, fun h => .go h .done⟩
  cases h with
  | go hc h =>
      cases h
      exact hc

/-- One more component goes to the same place behind a list of components and behind its normal
form, which is given last component first. -/
theorem Leads.push (h : t.Leads l s.reverse m) (hc : t.Goes m c m') :
    t.Leads l (Component.push s c).reverse m' := by
  have hkept : t.Leads l (c :: s).reverse m' := by
    rw [List.reverse_cons]
    exact leads_concat_iff.2 ⟨m, h, hc⟩
  cases hc with
  | root => exact hkept
  | here _ => exact h
  | name _ _ => exact hkept
  | up _ =>
      match s with
      | [] => exact hkept
      | .here :: _ => exact hkept
      | .up :: _ => exact hkept
      | .name n :: s =>
          -- The directory was entered by the name that is taken back.
          rw [List.reverse_cons] at h
          obtain ⟨k, hk, hlast⟩ := leads_concat_iff.1 h
          cases hlast
          rwa [List.dropLast_concat]
      | .root :: s =>
          have hroot := h
          rw [List.reverse_cons] at hroot
          obtain ⟨k, -, hlast⟩ := leads_concat_iff.1 hroot
          cases hlast
          exact h

theorem Leads.foldl_push (h : t.Leads l s.reverse m) (hcs : t.Leads m cs l') :
    t.Leads l (cs.foldl Component.push s).reverse l' := by
  induction hcs generalizing s with
  | done => exact h
  | go hc _ ih => exact ih (h.push hc)

theorem Leads.normalForm (h : t.Leads l cs l') : t.Leads l (normalForm cs) l' :=
  Leads.foldl_push (s := []) .done h

/-- A path and its normal form lead to the same place. -/
theorem Leads.normalize (hcwd : t.entry? cwd = some .directory) (h : t.Leads cwd p.components l) :
    t.Leads cwd p.normalize.components l := by
  have hform := h.normalForm
  rw [Path.components_normalize]
  split
  · rename_i hnil
    rw [hnil] at hform
    cases hform
    exact .go (.here hcwd) .done
  · exact hform

/-! ## The walk of an operating system -/

theorem walk_nil (t : Tree) (links : Nat) (l : Location) : t.walk links l [] = .ok l := by
  rw [walk.eq_def]

/-- What the first move of a walk can do where there are no links. -/
theorem walk_cons_eq_ok (hlinks : t.LinkFree) {x : Move} {xs : List Move} :
    t.walk links l (x :: xs) = .ok l' ↔ t.entry? l = some .directory ∧
      match x with
      | .stay => t.walk links l xs = .ok l'
      | .up => t.walk links l.dropLast xs = .ok l'
      | .down n => n.length ≤ maxName ∧ (t.entry? (l ++ [n])).isSome = true ∧
          t.walk links (l ++ [n]) xs = .ok l' := by
  rw [walk.eq_def]
  rcases hl : t.entry? l with _ | _ | _ | _
  case some.directory =>
    cases x with
    | stay => simp
    | up => simp
    | down n =>
        by_cases hn : maxName < n.length
        · simp [hn, Nat.not_le.2 hn]
        · rcases hentry : t.entry? (l ++ [n]) with _ | _ | _ | target
          case some.link => exact absurd hentry (hlinks _ _)
          all_goals simp [hn, Nat.not_lt.1 hn, hentry]
  all_goals simp

/-- The moves of a walk lead to where their components lead, and no name is too long. -/
theorem leads_of_walk (hlinks : t.LinkFree) {xs : List Move} (h : t.walk links l xs = .ok l') :
    t.Leads l (xs.filterMap Move.component?) l' ∧ ∀ n, .down n ∈ xs → n.length ≤ maxName := by
  induction xs generalizing l with
  | nil =>
      rw [walk_nil] at h
      cases h
      exact ⟨.done, by simp⟩
  | cons x xs ih =>
      obtain ⟨hdir, hrest⟩ := (walk_cons_eq_ok hlinks).1 h
      cases x with
      | stay =>
          obtain ⟨hleads, hnames⟩ := ih hrest
          exact ⟨hleads, by simpa using hnames⟩
      | up =>
          obtain ⟨hleads, hnames⟩ := ih hrest
          exact ⟨.go (.up hdir) hleads, by simpa using hnames⟩
      | down n =>
          obtain ⟨hn, hsome, hrest⟩ := hrest
          obtain ⟨e, hentry⟩ := Option.isSome_iff_exists.1 hsome
          obtain ⟨hleads, hnames⟩ := ih hrest
          exact ⟨.go (.name hdir hentry) hleads, by simpa [hn] using hnames⟩

/-- Components that lead somewhere can be walked, if no name is too long. -/
theorem walk_of_leads (hlinks : t.LinkFree) (hcs : ∀ c ∈ cs, Inner c)
    (hnames : ∀ n, .name n ∈ cs → n.length ≤ maxName) (h : t.Leads l cs l') :
    t.walk links l (cs.filterMap Component.move?) = .ok l' := by
  induction h with
  | done => rw [List.filterMap_nil, walk_nil]
  | @go l m l' c cs hc _ ih =>
      have hrest := ih (fun d hd => hcs d (.tail _ hd)) fun n hn => hnames n (.tail _ hn)
      cases hc with
      | root => cases hcs _ (.head _)
      | here => cases hcs _ (.head _)
      | up hdir => exact (walk_cons_eq_ok hlinks).2 ⟨hdir, hrest⟩
      | name hdir hentry =>
          exact (walk_cons_eq_ok hlinks).2 ⟨hdir, hnames _ (.head _), by simp [hentry], hrest⟩

/-! ## Paths -/

theorem leads_of_locate (hlinks : t.LinkFree) (hcwd : t.entry? cwd = some .directory)
    (h : t.locate cwd p = .ok l) : t.Leads cwd p.components l := by
  have hleads := (leads_of_walk hlinks h).1
  rw [Move.filterMap_ofPath] at hleads
  unfold base at hleads
  unfold Path.components
  split
  · rename_i habs
    rw [if_pos habs] at hleads
    exact .go .root hleads
  · rename_i habs
    rw [if_neg habs] at hleads
    split
    · exact .go (.here hcwd) hleads
    · exact hleads

theorem length_le_of_locate (hlinks : t.LinkFree) (h : t.locate cwd p = .ok l) {n : Bytes}
    (hn : .name n ∈ p.components) : n.length ≤ maxName := by
  have hmem : .name n ∈ (Move.ofPath p).filterMap Move.component? := by
    rw [Move.filterMap_ofPath]
    unfold Path.components at hn
    split_ifs at hn <;> simpa using hn
  obtain ⟨x, hx, hcomponent⟩ := List.mem_filterMap.1 hmem
  cases x with
  | stay => cases hcomponent
  | up => cases hcomponent
  | down n =>
      cases hcomponent
      exact (leads_of_walk hlinks h).2 _ hx

/-- A path whose first component is not the root begins in the working directory. -/
theorem base_of_components (h : p.components = c :: cs) (hc : c ≠ .root) : base cwd p = cwd := by
  unfold base
  split
  · rename_i habs
    rw [Path.components, if_pos habs] at h
    exact absurd (List.cons.inj h).1.symm hc
  · rfl

/-- Where the components of a normal form lead, a walk of its spelling leads. -/
theorem locate_ofNormal (hlinks : t.LinkFree) (hcwd : t.entry? cwd = some .directory)
    (hcs : Normal cs) (hnames : ∀ n, .name n ∈ cs → n.length ≤ maxName)
    (h : t.Leads cwd cs l) : t.locate cwd (.ofNormal cs) = .ok l := by
  -- The root and the working directory are spelled with a move that stays there.
  have hstay {l : Location} (hdir : t.entry? l = some .directory) :
      t.walk maxLinks l [.stay] = .ok l :=
    (walk_cons_eq_ok hlinks).2 ⟨hdir, walk_nil _ _ _⟩
  rcases hcs.inner with ⟨ds, rfl, hds⟩ | hinner
  · cases h with
    | go hc h =>
        cases hc
        cases ds with
        | nil =>
            cases h
            exact hstay rfl
        | cons d ds =>
            rw [locate, Path.ofNormal, Path.ofComponents, Move.ofPath_root hds (by simp)]
            · exact walk_of_leads hlinks hds (fun n hn => hnames n (.tail _ hn)) h
            · simp
  · cases cs with
    | nil =>
        cases h
        exact hstay hcwd
    | cons c cs =>
        have hspelled := Path.ofNormal_cons (hinner c (.head _)) cs
        have hbase : base cwd (.ofNormal (c :: cs)) = cwd := by
          rw [hspelled]
          refine base_of_components (Path.components_inner hinner (by simp)) ?_
          rintro rfl
          cases hinner _ (.head _)
        rw [locate, hbase, hspelled, Move.ofPath_inner hinner (by simp)]
        exact walk_of_leads hlinks hinner hnames h

/-- The location of a path is the location of its normal form. -/
theorem locate_normalize (hlinks : t.LinkFree) (hcwd : t.entry? cwd = some .directory)
    (h : t.locate cwd p = .ok l) : t.locate cwd p.normalize = .ok l := by
  have hleads := leads_of_locate hlinks hcwd h
  refine locate_ofNormal hlinks hcwd p.normal_normalForm (fun n hn => ?_) (.normalForm hleads)
  exact length_le_of_locate hlinks h (Component.mem_of_mem_normalForm hn)

theorem exists_locate_of_read {ds : List Delivery} (h : t.read cwd p = .ok ds) :
    ∃ l, t.locate cwd p = .ok l := by
  unfold read at h
  split_ifs at h
  cases hl : t.locate cwd p with
  | error c => simp [hl] at h
  | ok l => exact ⟨l, rfl⟩

/-- Two paths that can be opened and have the same normal form are in the same place. -/
theorem locate_eq_of_normalize_eq (hlinks : t.LinkFree) (hcwd : t.entry? cwd = some .directory)
    {ds ds' : List Delivery} (heq : p.normalize = q.normalize) (hp : t.read cwd p = .ok ds)
    (hq : t.read cwd q = .ok ds') : ∃ l, t.locate cwd p = .ok l ∧ t.locate cwd q = .ok l := by
  obtain ⟨l, hl⟩ := exists_locate_of_read hp
  obtain ⟨l', hl'⟩ := exists_locate_of_read hq
  have hsame := locate_normalize hlinks hcwd hl
  rw [heq, locate_normalize hlinks hcwd hl'] at hsame
  cases hsame
  exact ⟨_, hl, hl'⟩

end Tree

/-! ## Paths that a trace passes over -/

namespace Walk

open Signal (events)

variable {files : FileSystem} {limit : Option Nat} {root q : Path} {n : Nat} {v : Visited}
  {es es₁ es₂ : List Event} {l : List Signal} {b : Position}

/-- A path whose normal form is not visited when it is entered is opened, and all there is to tell
about the file is told. -/
theorem TraceTo.told_eq_script (ht : TraceTo files limit root v n l b) (hend : b.stack = [])
    (hl : events l = es₁ ++ .enter q :: es₂)
    (hq : (v.entered es₁).contains q.normalize = false) :
    told q.normalize (events l) = script files q := by
  obtain ⟨hv, hnone⟩ := openedAs?_of_not_contains hq
  have hopened : openedAs? v q.normalize (events l) = some q := by
    rw [hl, openedAs?_append, hnone, Option.none_or, ← List.singleton_append, openedAs?_append,
      openedAs?_enter, if_pos ⟨hv, rfl⟩, Option.some_or]
  have htold := ht.tracks.accounted q.normalize
  rwa [hend, due_nil, List.append_nil, hopened] at htold

/-- A normal form that is visited is that of a path which was given as visited or was entered. -/
theorem exists_normalize_eq_of_contains (h : (v.entered es).contains q.normalize = true) :
    ∃ p, (p ∈ v.paths ∨ .enter p ∈ es) ∧ p.normalize = q.normalize := by
  rcases (Visited.contains_entered v es _).1 h with hv | ⟨p, hp, hcomponents⟩
  · obtain ⟨p, hp, hcomponents⟩ := List.any_eq_true.1 hv
    refine ⟨p, .inl hp, ?_⟩
    rw [← Path.normalize_normalize q, Path.normalize, Path.normalize, eq_of_beq hcomponents]
  · exact ⟨p, .inr hp, Path.normalize_eq_iff.1 hcomponents⟩

end Walk

namespace Tree

/-- In a tree without links, seen from one of its directories, a path leads to where its normal
form leads.  So paths that can be opened and have the same normal form are in the same place.

A trace opens each path that it enters and tells all about the file, unless the normal form is
among the visited paths.  Then a path with this normal form was visited before, and if the two can
be opened they are in the same place. -/
theorem normalize_sound_of_linkFree {t : Tree} {cwd : Location} (hlinks : t.LinkFree)
    (hcwd : t.entry? cwd = some .directory) :
    (∀ (p : Path) l, t.Leads cwd p.components l → t.Leads cwd p.normalize.components l)
      ∧ (∀ p l, t.locate cwd p = .ok l → t.locate cwd p.normalize = .ok l)
      ∧ (∀ p q ds ds', p.normalize = q.normalize → t.read cwd p = .ok ds →
        t.read cwd q = .ok ds' → ∃ l, t.locate cwd p = .ok l ∧ t.locate cwd q = .ok l)
      ∧ ∀ {σ : Type} (k : Sink σ) (st : σ) limit fuel root v o, k.NeverRefuses st →
        Walk.outcome ⟨t.fileSystem cwd, k, limit⟩ fuel root v st = some o →
        ∀ es₁ q es₂, o.events = es₁ ++ .enter q :: es₂ →
          ((v.entered es₁).contains q.normalize = false →
            Walk.told q.normalize o.events = Walk.script (t.fileSystem cwd) q)
          ∧ ((v.entered es₁).contains q.normalize = true →
            (∃ p, (p ∈ v.paths ∨ .enter p ∈ es₁) ∧ p.normalize = q.normalize)
            ∧ ∀ p ds ds', (p ∈ v.paths ∨ .enter p ∈ es₁) → p.normalize = q.normalize →
              t.fileSystem cwd p = .ok ds → t.fileSystem cwd q = .ok ds' →
              ∃ l, t.locate cwd p = .ok l ∧ t.locate cwd q = .ok l) := by
  refine ⟨fun p l h => h.normalize hcwd, fun p l h => locate_normalize hlinks hcwd h,
    fun p q ds ds' heq hp hq => locate_eq_of_normalize_eq hlinks hcwd heq hp hq, ?_⟩
  intro σ k st limit fuel root v o hk ho es₁ q es₂ hes
  refine ⟨fun hq => ?_, fun hq => ⟨Walk.exists_normalize_eq_of_contains hq, ?_⟩⟩
  · obtain ⟨n, l, b, ht, hend, -, rfl⟩ := (Walk.outcome_eq_some_iff_of_neverRefuses hk).1 ho
    exact ht.told_eq_script hend hes hq
  · intro p ds ds' _ heq hp hq
    exact locate_eq_of_normalize_eq hlinks hcwd heq hp hq

/-- The directory of someone who works in `loopTree`. -/
def loopDirectory : Location := [Utf8.encode "src".toList]

/-- A file that includes itself, and a directory beside it. -/
def loopTree : Tree :=
  ⟨[([Utf8.encode "main.c".toList], .file (Utf8.encode "#include \"main.c\"\n".toList)),
    (loopDirectory, .directory)]⟩

/-- A way to the file through the directory and back. -/
def loopRoundabout : Path := .ofText "../src/../main.c".toList

/-- The direct way to the file, which its own directive leads to. -/
def loopDirect : Path := .ofText "../main.c".toList

theorem linkFree_loopTree : loopTree.LinkFree := linkFree_of_entries (by simp [loopTree])

theorem locate_loopRoundabout :
    loopTree.locate loopDirectory loopRoundabout = .ok [Utf8.encode "main.c".toList] := by
  have hmoves : Move.ofPath loopRoundabout =
      [.up, .down (Utf8.encode "src".toList), .up, .down (Utf8.encode "main.c".toList)] := by
    decide
  rw [locate, hmoves]
  simp only [walk_cons_eq_ok linkFree_loopTree, walk_nil, Except.ok.injEq]
  decide

/-- On both ways the file is opened. -/
theorem read_loopTree {p : Path} (h : p ∈ [loopRoundabout, loopDirect]) :
    loopTree.read loopDirectory p =
      .ok [.bytes (Utf8.encode "#include \"main.c\"\n".toList)] := by
  have hlocate : loopTree.locate loopDirectory p = .ok [Utf8.encode "main.c".toList] := by
    rcases List.mem_cons.1 h with rfl | h
    · exact locate_loopRoundabout
    · obtain rfl := List.mem_singleton.1 h
      exact locate_normalize linkFree_loopTree rfl locate_loopRoundabout
  have hlimits : ∀ p ∈ [loopRoundabout, loopDirect],
      ¬ p.bytes.contains 0 ∧ p.bytes ≠ [] ∧ ¬ pathLimit ≤ p.bytes.length := by
    decide
  obtain ⟨hzero, hempty, hlong⟩ := hlimits p h
  rw [read, if_neg hzero, if_neg hempty, if_neg hlong, hlocate]
  rfl

/-- The file is opened on the way through the directory.  Its own directive leads to it on the
direct way, where it is passed over. -/
theorem normalize_sound_of_linkFree_loop :
    ∃ o l, Walk.outcome ⟨loopTree.fileSystem loopDirectory, Journal.sink, none⟩ 3 loopRoundabout
          .empty (.empty none) = some o
      ∧ .enter loopDirect ∈ o.events
      ∧ Walk.told loopDirect o.events =
        Walk.script (loopTree.fileSystem loopDirectory) loopRoundabout
      ∧ loopTree.locate loopDirectory loopRoundabout = .ok l
      ∧ loopTree.locate loopDirectory loopDirect = .ok l := by
  have hscan : Scan.ofDeliveries [.bytes (Utf8.encode "#include \"main.c\"\n".toList)] =
      ⟨[⟨1, "#include \"main.c\"".toList, "main.c".toList, .quoted⟩], 1, none⟩ := by
    decide +kernel
  have hread := read_loopTree (p := loopRoundabout) (by simp)
  have hopened : Walk.Enters (loopTree.fileSystem loopDirectory) loopRoundabout 0 (.init .empty)
      _ _ := .opened rfl hread
  rw [hscan] at hopened
  obtain ⟨l, b, htrace, hend, hevents⟩ : ∃ l b, Walk.TraceTo (loopTree.fileSystem loopDirectory)
      none loopRoundabout .empty 2 l b ∧ b.stack = [] ∧ Signal.events l =
        [.enter loopRoundabout,
          .found loopRoundabout ⟨1, "#include \"main.c\"".toList, "main.c".toList, .quoted⟩,
          .enter loopDirect, .close loopRoundabout] :=
    ⟨_, _, .intro hopened (.head (.follow rfl rfl (.again (by decide))) (.head .leave .refl)), rfl,
      rfl⟩
  have hjournal : Journal.sink.NeverRefuses (.empty none) := Journal.neverRefuses_of_unlimited rfl
  have ho := (Walk.outcome_eq_some_iff_of_neverRefuses
    (c := ⟨loopTree.fileSystem loopDirectory, Journal.sink, none⟩) hjournal).2
    ⟨2, l, b, htrace, hend, Nat.lt_succ_self 2, rfl⟩
  have hsound := (normalize_sound_of_linkFree linkFree_loopTree rfl).2.2.2 Journal.sink _ none 3 _
    .empty _ hjournal ho
  have hfirst := (hsound [] _ _ hevents).1 rfl
  have hagain := (hsound [_, _] _ _ hevents).2 (by decide)
  obtain ⟨l, hl, hl'⟩ := hagain.2 loopRoundabout _ _ (.inr (.head _)) (by decide) hread
    (read_loopTree (p := loopDirect) (by simp))
  exact ⟨_, l, ho, by simp [hevents], hfirst, hl, hl'⟩

end Tree

end IncludeTrace
